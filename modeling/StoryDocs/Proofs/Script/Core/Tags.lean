import StoryDocs.Proofs.Script.Core.Reading

/-!
# Reading tags

A tag is read from its bracket up to the one that closes it.  Its attributes are a run of entries that ends at a
slash or a bracket.  What stands between it and its closing tag is read in rounds that start behind a bracket, and
text joins the round behind it.

* `Core.reads` is the result for all classes of texts.
* `Core.readsValue` states it for values.
-/

namespace StoryDocs
namespace Script

open Text Grammar

variable {tags : Bool} {bound n d k stop start : Nat} {b : Bool} {m : Char} {g rest s t text inner w : List Char}
  {shape : Shape} {shapes parts : List Shape} {category : Category} {scope : Scope} {c c₁ c' : Cursor} {e : Tree}
  {es : List Tree} {rs : Rules}

/-! ## Names -/

/-- A word of a tag does not go on in a text. -/
def EndsTagWord (rest : List Char) : Prop :=
  EndsWord rest ∧ rest.head? ≠ some '-'

/-- A text behind the name of a tag or of an attribute that has no value. -/
structure BehindName (rest : List Char) : Prop where
  word : EndsTagWord rest
  not_mark : ∀ bound n, ∀ m ∈ [":", ".", "<", "="], isMark (Cursor.front bound rest n).token m = false

theorem isTagChar_iff {e : Char} : (isIdentifierPart e || e == '-') = true ↔ isIdentifierPart e = true ∨ e = '-' := by
  rw [Bool.or_eq_true, beq_iff_eq]

/-- What a tag takes for a name starts with a word of the script. -/
theorem IsTagWord.exists_word (hw : IsTagWord w) :
    ∃ u v, w = u ++ v ∧ IsWord u ∧ (v = [] ∨ v.head? = some '-') := by
  obtain ⟨hstart, htail⟩ := hw
  rename_i e tail
  refine ⟨e :: tail.takeWhile isIdentifierPart, tail.dropWhile isIdentifierPart, ?_,
    ⟨e, _, rfl, hstart, List.all_takeWhile⟩,
    ?_⟩
  · rw [List.cons_append, List.takeWhile_append_dropWhile]
  · have hhead := List.head?_dropWhile_not isIdentifierPart tail
    cases hrest : tail.dropWhile isIdentifierPart with
    | nil => exact .inl rfl
    | cons f more =>
        rw [hrest] at hhead
        have hmem : f ∈ tail := (List.dropWhile_sublist _).subset (by rw [hrest]; exact List.mem_cons_self)
        have hhyphen : f = '-' := (htail f hmem).resolve_left (by simpa using hhead)
        exact .inr (congrArg some hhyphen)

theorem IsTagWord.span (hw : IsTagWord w) (hrest : EndsTagWord rest) :
    ((w ++ rest).span fun e => isIdentifierPart e || e == '-') = (w, rest) := by
  have hall : ∀ e ∈ w, (isIdentifierPart e || e == '-') = true := by
    obtain ⟨hstart, htail⟩ := hw
    refine List.forall_mem_cons.mpr ⟨?_, fun e he => isTagChar_iff.mpr (htail e he)⟩
    exact isTagChar_iff.mpr (.inl (isIdentifierPart_of_start hstart))
  have hend : rest.takeWhile (fun e => isIdentifierPart e || e == '-') = [] ∧
      rest.dropWhile (fun e => isIdentifierPart e || e == '-') = rest := by
    cases rest with
    | nil => exact ⟨rfl, rfl⟩
    | cons e rest =>
        have hpart := (hrest.1 e rfl).1
        have hhyphen : e ≠ '-' := fun heq => hrest.2 (congrArg some heq)
        simp [hpart, hhyphen]
  rw [List.span_eq_takeWhile_dropWhile, List.takeWhile_append_of_pos hall, List.dropWhile_append_of_pos hall, hend.1,
    hend.2, List.append_nil]

theorem IsTagWord.length_pos (hw : IsTagWord w) : 0 < w.length := by
  obtain ⟨_, _⟩ := hw
  exact Nat.succ_pos _

theorem run_resumeAt (h : c.faulty = false) (s : List Char) (n : Nat) :
    resumeAt s n scope c = some ((), .front scope.bound s n) := by
  obtain ⟨token, lastStop, faulty⟩ := c
  cases h
  rfl

/-- The token at a word of a tag, which may end in front of a hyphen. -/
theorem IsTagWord.token (hw : IsTagWord w) (hg : IsGap g) (hrest : EndsTagWord rest) (hbound : w.length ≤ bound)
    (n : Nat) : isName (Cursor.front bound (g ++ w ++ rest) n).token = true ∧
      (Cursor.front bound (g ++ w ++ rest) n).token.here = w ++ rest ∧
      (Cursor.front bound (g ++ w ++ rest) n).token.start = n + g.length := by
  obtain ⟨u, v, rfl, hu, hv⟩ := hw.exists_word
  have hends : EndsWord (v ++ rest) := by
    rcases hv with rfl | hv
    · exact hrest.1
    · have hhyphen : isIdentifierPart '-' = false ∧ '-' ≠ '\\' := by decide
      intro e he
      rw [List.head?_append, hv, Option.some_or] at he
      cases he
      exact hhyphen
  rw [List.length_append] at hbound
  have hread := @Token.read_word bound n _ g u (v ++ rest) hg.skips hu hends (by omega)
  have htext : g ++ (u ++ v) ++ rest = g ++ u ++ (v ++ rest) := by simp
  rw [htext, Cursor.front, hread]
  exact ⟨rfl, (List.append_assoc u v rest).symm, rfl⟩

/-- A word of a tag is read as a whole, with its hyphens. -/
theorem tagWord_word (hg : IsGap g) (hw : IsTagWord w) (hrest : EndsTagWord rest) (hbound : w.length ≤ scope.bound)
    (n : Nat) : tagWord scope (.front scope.bound (g ++ w ++ rest) n) =
      some (.node .tagName ⟨n + g.length, n + g.length + w.length⟩ (String.ofList w) [],
        .front scope.bound rest (n + g.length + w.length)) := by
  have hspan := hw.span hrest
  obtain ⟨hname, hhere, hstart⟩ := hw.token hg hrest hbound n
  have hne : w.isEmpty = false := by
    obtain ⟨_, _⟩ := hw
    rfl
  generalize hc : Cursor.front scope.bound (g ++ w ++ rest) n = c at hname hhere hstart ⊢
  have hfaulty : c.faulty = false := hc ▸ rfl
  simp only [tagWord, token_bind_run, hname, hhere, hspan, hne, hstart, require_bind_run, if_true, Bool.not_false]
  rw [run_bind_of (run_resumeAt hfaulty _ _)]
  rfl

theorem tagNamespaced_word (hg : IsGap g) (hw : IsTagWord w) (hrest : EndsTagWord rest)
    (hcolon : ∀ n, isMark (Cursor.front scope.bound rest n).token ":" = false) (hbound : w.length ≤ scope.bound)
    (n : Nat) : tagNamespaced scope (.front scope.bound (g ++ w ++ rest) n) =
      some (.node .tagName ⟨n + g.length, n + g.length + w.length⟩ (String.ofList w) [],
        .front scope.bound rest (n + g.length + w.length)) := by
  have hword := tagWord_word hg hw hrest hbound n
  generalize Cursor.front scope.bound (g ++ w ++ rest) n = c at hword ⊢
  simp [tagNamespaced, run_bind_of hword, hcolon]

/-- One round over the words of a name. -/
def nameRound (start : Nat) (name : Tree) : Parse (Tree ⊕ Tree) := do
  if ← eatMark "." then
    let next ← tagWord
    return .inl (← finish .tagName start (name.name ++ "." ++ next.name) [])
  return .inr name

theorem IsTagWord.at_point (hw : IsTagWord w) (s : List Char) (bound n : Nat) :
    (Cursor.front bound ('.' :: (w ++ s)) n).At bound (.mark ".") (w ++ s) (n + 1) := by
  have hdigits : ∀ e ∈ '.' :: "0123456789".toList, isIdentifierStart e = false := by decide
  refine @Cursor.at_point bound n [] (w ++ s) .nil fun e he => ⟨?_, ?_⟩
  · rintro rfl
    exact hw.head?_ne (hdigits _ List.mem_cons_self) s he
  · cases hdigit : e.isDigit with
    | false => rfl
    | true => exact absurd he (hw.head?_ne (hdigits e (List.mem_cons_of_mem _ (mem_digits hdigit))) s)

/-- A word ends in front of a point. -/
theorem endsTagWord_point (s : List Char) : EndsTagWord ('.' :: s) := by
  have hpoint : isIdentifierPart '.' = false ∧ '.' ≠ '\\' := by decide
  refine ⟨?_, by simp⟩
  rintro e ⟨⟩
  exact hpoint

/-- The words of a name behind its first one. -/
theorem IsTagName.rounds (hw : IsTagName w) (hrest : BehindName rest) (hbound : w.length ≤ scope.bound) (start : Nat) :
    ∀ (name : Tree) (n k : Nat), w.length < k → ∃ tree : Tree,
      iterate (nameRound start) k name scope (.front scope.bound ('.' :: (w ++ rest)) n) =
        some (tree, .front scope.bound rest (n + 1 + w.length)) ∧
      tree.name = name.name ++ "." ++ String.ofList w := by
  have hend : ∀ (name : Tree) (n k : Nat), 0 < k → iterate (nameRound start) k name scope (.front scope.bound rest n) =
      some (name, .front scope.bound rest n) := by
    intro name n k hk
    obtain ⟨k, rfl⟩ : ∃ k', k = k' + 1 := ⟨k - 1, by omega⟩
    have hpoint := hrest.not_mark scope.bound n "." (by simp)
    simp [iterate, nameRound, run_bind, hpoint]
  -- A round takes a point and the word behind it.
  have hround : ∀ {w rest : List Char} (name : Tree) (n k : Nat), IsTagWord w → EndsTagWord rest →
      w.length ≤ scope.bound → iterate (nameRound start) (k + 1) name scope
        (.front scope.bound ('.' :: (w ++ rest)) n) =
        iterate (nameRound start) k (.node .tagName ⟨start, n + 1 + w.length⟩ (name.name ++ "." ++ String.ofList w) [])
          scope (.front scope.bound rest (n + 1 + w.length)) := by
    intro w rest name n k hw hrest hbound
    have hat := hw.at_point rest scope.bound n
    have hword := @tagWord_word [] rest w scope .nil hw hrest hbound (n + 1)
    rw [List.nil_append, ← hat.next, List.length_nil, Nat.add_zero] at hword
    rw [iterate]
    simp [nameRound, isMark_self hat.lexeme, advance_bind_run hat.sound, run_bind_of hword, run_bind, run_map]
    rfl
  induction hw with
  | @word w hw =>
      intro name n k hk
      obtain ⟨k, rfl⟩ : ∃ k', k = k' + 1 := ⟨k - 1, by omega⟩
      have hpos := hw.length_pos
      rw [hround name n k hw hrest.word hbound, hend _ _ _ (by omega)]
      exact ⟨_, rfl, rfl⟩
  | @member w more hw hmore ih =>
      intro name n k hk
      simp only [List.length_append, List.length_cons] at hk hbound
      obtain ⟨k, rfl⟩ : ∃ k', k = k' + 1 := ⟨k - 1, by omega⟩
      have hpos := hw.length_pos
      rw [List.append_assoc, List.cons_append, hround name n k hw (endsTagWord_point _) (by omega)]
      obtain ⟨tree, hread, hname⟩ := ih (by omega) (.node .tagName ⟨start, n + 1 + w.length⟩
        (name.name ++ "." ++ String.ofList w) []) (n + 1 + w.length) k (by omega)
      refine ⟨tree, ?_, ?_⟩
      · rw [hread]
        congr 3
        simp only [List.length_append, List.length_cons]
        omega
      · rw [hname, Tree.name]
        apply String.toList_inj.mp
        simp

/-- The name of a tag. -/
theorem IsTagName.read (hw : IsTagName w) (hg : IsGap g) (hrest : BehindName rest) (hbound : w.length ≤ scope.bound)
    (n : Nat) : ∃ tree : Tree, tagName scope (.front scope.bound (g ++ w ++ rest) n) =
        some (tree, .front scope.bound rest (n + g.length + w.length)) ∧ tree.name = String.ofList w := by
  have hloop : ∀ {c c₁ : Cursor} {first : Tree}, tagNamespaced scope c = some (first, c₁) →
      tagName scope c = iterate (nameRound c.token.start) (scope.bound + 1) first scope c₁ := by
    intro c c₁ first hfirst
    simp [tagName, run_bind_of hfirst, repeatFrom]
    rfl
  cases hw with
  | word hw =>
      have hcolon := fun n => hrest.not_mark scope.bound n ":" (by simp)
      have hpoint := fun n => hrest.not_mark scope.bound n "." (by simp)
      rw [hloop (tagNamespaced_word hg hw hrest.word hcolon hbound n)]
      refine ⟨.node .tagName ⟨n + g.length, n + g.length + w.length⟩ (String.ofList w) [], ?_, rfl⟩
      simp [iterate, nameRound, run_bind, hpoint]
  | @member w more hw hmore =>
      simp only [List.length_append, List.length_cons] at hbound
      have hcolon : ∀ n, isMark (Cursor.front scope.bound ('.' :: (more ++ rest)) n).token ":" = false := by
        intro n
        have hat : (Cursor.front scope.bound ('.' :: (more ++ rest)) n).token.lexeme = .mark "." := by
          cases hmore with
          | word hw => exact (hw.at_point rest scope.bound n).lexeme
          | member hw _ =>
              rw [List.append_assoc]
              exact (hw.at_point _ scope.bound n).lexeme
        exact isMark_of_other hat (by decide)
      have hfirst := tagNamespaced_word hg hw (endsTagWord_point (more ++ rest)) hcolon
        (show w.length ≤ scope.bound by omega) n
      rw [← List.append_assoc g, List.append_assoc (g ++ w), List.cons_append, hloop hfirst]
      obtain ⟨tree, hread, hname⟩ := @IsTagName.rounds rest more scope hmore hrest (by omega) _ _
        (n + g.length + w.length) (scope.bound + 1) (by omega)
      refine ⟨tree, ?_, ?_⟩
      · rw [hread]
        congr 3
        simp only [List.length_append, List.length_cons]
        omega
      · rw [hname, Tree.name]
        apply String.toList_inj.mp
        simp

/-! ## Behind names -/

/-- A token that starts like a word is no mark, even if it cannot be read. -/
theorem isMark_of_start (hg : IsGap g) (hm : isIdentifierStart m = true) (s : List Char) (bound n : Nat)
    (text : String) :
    isMark (Cursor.front bound (g ++ m :: s) n).token text = false := by
  rw [Cursor.front, Token.read_code hg.skips (ne_slash_of_start hm) (isBlank_of_start hm)
    (ne_byteOrderMark_of_start hm)]
  simp only [Token.readHere, hm, Bool.true_or, if_true, Bool.not_true, Bool.false_eq_true, if_false]
  repeat' split
  all_goals rfl

theorem IsTagWord.not_mark (hw : IsTagWord w) (hg : IsGap g) (s : List Char) (bound n : Nat) (text : String) :
    isMark (Cursor.front bound (g ++ (w ++ s)) n).token text = false := by
  obtain ⟨hstart, _⟩ := hw
  exact isMark_of_start hg hstart _ bound n text

theorem IsGap.endsTagWord (hg : IsGap g) (hm : isIdentifierPart m = false) (hother : m ∉ ['\\', '-']) (s : List Char) :
    EndsTagWord (g ++ m :: s) := by
  simp only [List.mem_cons, List.not_mem_nil, or_false, not_or] at hother
  refine ⟨hg.endsWord hm hother.1 s, ?_⟩
  cases g with
  | nil =>
      rintro ⟨⟩
      exact hother.2 rfl
  | cons e g => exact fun heq => absurd (hg.head_mem '-' heq) (by decide)

theorem IsSpace.endsTagWord (hg : IsSpace g) (s : List Char) : EndsTagWord (g ++ s) := by
  refine ⟨hg.endsWord s, ?_⟩
  obtain ⟨e, tail, rfl⟩ := List.exists_cons_of_ne_nil hg.ne_nil
  exact fun heq => absurd (hg.gap.head_mem '-' heq) (by decide)

/-- The mark at which the attributes of a tag end. -/
theorem EndsTag.exists_mark (h : EndsTag rest) : EndsTagWord rest ∧
    ∀ bound n, ∃ text ∈ ["/", ">"], (Cursor.front bound rest n).token.lexeme = .mark text := by
  have hclass : ∀ e ∈ ['/', '>'], isIdentifierPart e = false ∧ e ∉ ['\\', '-'] := by decide
  obtain ⟨g, k, hg, rfl | rfl⟩ := h
  · refine ⟨hg.endsTagWord (hclass '/' (by simp)).1 (hclass '/' (by simp)).2 _, fun bound n => ⟨"/", by simp, ?_⟩⟩
    exact (@Cursor.at_slash bound n g ('>' :: k) hg (by simp)).lexeme
  · refine ⟨hg.endsTagWord (hclass '>' (by simp)).1 (hclass '>' (by simp)).2 _, fun bound n => ⟨">", by simp, ?_⟩⟩
    exact (Cursor.at_mark hg (by decide)).lexeme

theorem EndsTag.behindName (h : EndsTag rest) : BehindName rest := by
  obtain ⟨hword, htoken⟩ := h.exists_mark
  refine ⟨hword, fun bound n m hm => ?_⟩
  obtain ⟨text, htext, hlexeme⟩ := htoken bound n
  have hmarks : ∀ text ∈ ["/", ">"], ∀ m ∈ [":", ".", "<", "="], text ≠ m := by decide
  exact isMark_of_other hlexeme (hmarks text htext m hm)

/-- Attributes stand behind a name. -/
theorem Core.behindName (h : Core tags .attributes text shapes) (hrest : EndsTag rest) : BehindName (text ++ rest) := by
  have hword : ∀ {g w : List Char} (s : List Char), IsSpace g → IsTagWord w → BehindName (g ++ (w ++ s)) :=
    fun s hg hw => ⟨hg.endsTagWord _, fun bound n m _ => hw.not_mark hg.gap s bound n m⟩
  cases h with
  | noAttributes => exact hrest.behindName
  | flagAttribute hg hw _ | textAttribute hg hw _ _ | valueAttribute hg hw _ _ _ _ =>
      simp only [List.append_assoc, List.cons_append]
      exact hword _ hg hw
  | spreadAttribute hg _ _ _ _ _ =>
      simp only [List.append_assoc, List.cons_append]
      refine ⟨hg.endsTagWord _, fun bound n m hm => ?_⟩
      have hbrace : ∀ m ∈ [":", ".", "<", "="], "\x7b" ≠ m := by decide
      exact isMark_of_other (Cursor.at_mark hg.gap (by decide)).lexeme (hbrace m hm)

/-! ## Attributes -/

/-- The sign in front of a value. -/
theorem Cursor.at_value {e : Char} (he : e ∈ ['\x22', '\x27', '\x7b']) (s : List Char) (bound n : Nat) :
    (Cursor.front bound ('=' :: e :: s) n).At bound (.mark "=") (e :: s) (n + 1) := by
  have hscan : scanMark ('=' :: e :: s) = some ("=", e :: s) := by
    simp only [List.mem_cons, List.not_mem_nil, or_false] at he
    rcases he with rfl | rfl | rfl <;> rfl
  have hread := @Token.read_sign bound n [] (e :: s) ['='] .nil (by decide) hscan
  exact at_of_read hread (by simp) (by simp)

/-- What starts with code is not moved over by the token that starts there. -/
theorem Token.here_code {e : Char} (hslash : e ≠ '/') (hblank : isBlank e = false) (hbom : e.toNat ≠ 0xFEFF)
    (s : List Char) (bound n : Nat) :
    (Token.read bound (e :: s) n).here = e :: s ∧ (Token.read bound (e :: s) n).start = n := by
  obtain ⟨hhere, hstart⟩ := Token.readHere_here bound (skipGap (e :: s) n false)
  rw [skipGap_code hslash hblank hbom] at hhere hstart
  rw [Token.read, skipGap_code hslash hblank hbom]
  exact ⟨hhere, hstart⟩

theorem splitQuoted_append {quote : Char} {v : List Char} (hv : IsTagString quote v) (rest : List Char) :
    splitQuoted quote (v ++ quote :: rest) = some (v, rest) := by
  have hall : ∀ e ∈ v, (e != quote) = true := fun e he => bne_iff_ne.mpr (hv.plain e he).1
  rw [splitQuoted, List.span_eq_takeWhile_dropWhile, List.takeWhile_append_of_pos hall,
    List.dropWhile_append_of_pos hall]
  simp

/-- A string of a tag, which has no escapes. -/
theorem attributeValue_string {quote : Char} {v : List Char} (hv : IsTagString quote v) (rest : List Char) (n : Nat) :
    attributeValue rs scope (.front scope.bound (quote :: (v ++ quote :: rest)) n) =
      some (.node .tagText ⟨n, n + v.length + 2⟩ (String.ofList v) [], .front scope.bound rest (n + v.length + 2)) := by
  have hclass : ∀ e ∈ ['\x22', '\x27'], e ≠ '/' ∧ isBlank e = false ∧ e.toNat ≠ 0xFEFF ∧
      (e == '\x22' || e == '\x27') = true := by decide
  obtain ⟨hslash, hblank, hbom, hquote⟩ := hclass quote (by rcases hv.isQuote with rfl | rfl <;> simp)
  obtain ⟨hhere, hstart⟩ := Token.here_code hslash hblank hbom (v ++ quote :: rest) scope.bound n
  have hsplit := splitQuoted_append hv rest
  generalize hc : Cursor.front scope.bound (quote :: (v ++ quote :: rest)) n = c
  have htoken : c.token = Token.read scope.bound (quote :: (v ++ quote :: rest)) n := hc ▸ rfl
  have hfaulty : c.faulty = false := hc ▸ rfl
  rw [← htoken] at hhere hstart
  simp only [attributeValue, token_bind_run, hhere, hquote, if_true, hsplit, hstart]
  rw [run_bind_of (run_resumeAt hfaulty _ _)]
  rfl

/-- An expression between braces is read up to the closing one. -/
theorem bracedExpression_value {g₁ g₂ : List Char} (hg₁ : IsGap g₁) (htext : Core tags .value text [shape])
    (h : Category.value.Reads tags text [shape]) (hg₂ : IsGap g₂) (hscope : scope.Fits tags)
    (hbound : text.length ≤ scope.bound) (hdepth : 8 * text.length ≤ d)
    (hat : c.At scope.bound (.mark "\x7b") (g₁ ++ (text ++ (g₂ ++ '\x7d' :: rest))) n) : ∃ tree c₁ stop,
      bracedExpression (rules (d + 1)) scope c = some (some tree, c₁) ∧ c₁.At scope.bound (.mark "\x7d") rest stop ∧
        tree.shape = shape := by
  have hends : ClosesText (g₂ ++ '\x7d' :: rest) := closesText_close hg₂ (by decide) rest
  have hstart := htext.startsValue hg₁ hends hbound n
  obtain ⟨tree, stop, hread, hshape, _⟩ := @h (bracketScope scope) d n g₁ (g₂ ++ '\x7d' :: rest) hscope hg₁ hends hbound
    hdepth shape List.mem_cons_self
  have hclose := @Cursor.at_mark scope.bound stop '\x7d' g₂ rest hg₂ (by decide)
  have hexpression : bracketed (rules (d + 1) .expression) scope (c.next scope.bound) =
      some (tree, .front scope.bound (g₂ ++ '\x7d' :: rest) stop) := by
    rw [hat.next, ← List.append_assoc]
    exact expression_value hread (isMark_of_other hclose.lexeme (by decide))
  rw [List.append_assoc, ← hat.next] at hstart
  have hbrace := hstart.not_mark (m := "\x7d") (by decide)
  have hdots := hstart.not_mark (m := "...") (by decide)
  have hopen := @run_expectMark scope c "\x7b" (isMark_self hat.lexeme) hat.sound
  refine ⟨tree, _, _, ?_, hclose, hshape⟩
  simp [bracedExpression, run_bind_of hopen, hbrace, hdots, run_bind_of hexpression, isMark_self hclose.lexeme,
    run_map]

/-- Braces around blanks and comments hold no expression. -/
theorem bracedExpression_gap (hg : IsGap g)
    (hat : c.At scope.bound (.mark "\x7b") (g ++ '\x7d' :: rest) n) :
    bracedExpression rs scope c = some (none, .front scope.bound (g ++ '\x7d' :: rest) n) := by
  have hclose := @Cursor.at_mark scope.bound n '\x7d' g rest hg (by decide)
  have hopen := @run_expectMark scope c "\x7b" (isMark_self hat.lexeme) hat.sound
  rw [hat.next] at hopen
  simp [bracedExpression, run_bind_of hopen, isMark_self hclose.lexeme]

theorem tagAttribute_flag (hw : IsTagWord w) (hg : IsGap g) (hrest : BehindName rest) (hbound : w.length ≤ scope.bound)
    (n : Nat) : ∃ span, tagAttribute rs scope (.front scope.bound (g ++ w ++ rest) n) =
      some (.node .tagAttribute span (String.ofList w) [], .front scope.bound rest (n + g.length + w.length)) := by
  have hcolon := fun n => hrest.not_mark scope.bound n ":" (by simp)
  have hequals := fun n => hrest.not_mark scope.bound n "=" (by simp)
  have hname := tagNamespaced_word hg hw hrest.word hcolon hbound n
  have hbrace := hw.not_mark hg rest scope.bound n "\x7b"
  rw [← List.append_assoc] at hbrace
  generalize Cursor.front scope.bound (g ++ w ++ rest) n = c at hname hbrace ⊢
  refine ⟨⟨c.token.start, n + g.length + w.length⟩, ?_⟩
  simp [tagAttribute, hbrace, run_bind_of hname, hequals, Tree.name]
  rfl

theorem tagAttribute_value {e : Char} {value : Tree} (hw : IsTagWord w) (hg : IsGap g)
    (he : e ∈ ['\x22', '\x27', '\x7b']) (hbound : w.length ≤ scope.bound)
    (hvalue : attributeValue rs scope (.front scope.bound (e :: s) (n + g.length + w.length + 1)) = some (value, c')) :
    ∃ span, tagAttribute rs scope (.front scope.bound (g ++ w ++ '=' :: e :: s) n) =
      some (.node .tagAttribute span (String.ofList w) [value], c') := by
  have hequals : isIdentifierPart '=' = false ∧ '=' ∉ ['\\', '-'] := by decide
  have hat := fun n => Cursor.at_value he s scope.bound n
  have hcolon : ∀ n, isMark (Cursor.front scope.bound ('=' :: e :: s) n).token ":" = false :=
    fun n => isMark_of_other (hat n).lexeme (by decide)
  have hends : EndsTagWord ('=' :: e :: s) := @IsGap.endsTagWord '=' [] .nil hequals.1 hequals.2 (e :: s)
  have hname := tagNamespaced_word hg hw hends hcolon hbound n
  have hbrace := hw.not_mark hg ('=' :: e :: s) scope.bound n "\x7b"
  have hsign := hat (n + g.length + w.length)
  rw [← hsign.next] at hvalue
  rw [← List.append_assoc] at hbrace
  generalize Cursor.front scope.bound (g ++ w ++ '=' :: e :: s) n = c at hname hbrace ⊢
  refine ⟨⟨c.token.start, c'.lastStop⟩, ?_⟩
  simp [tagAttribute, hbrace, run_bind_of hname, isMark_self hsign.lexeme, advance_bind_run hsign.sound,
    run_bind_of hvalue, Tree.name]

/-- One attribute in front of others. -/
theorem Category.reads_attribute {head tail : List Char} {first : Shape}
    (htail : Category.attributes.Reads tags tail shapes) (hhead : 0 < head.length)
    (hmark : ∀ s bound n, ∀ m ∈ ["/", ">"], isMark (Cursor.front bound (head ++ s) n).token m = false)
    (hread : ∀ ⦃scope d n rest⦄, scope.Fits tags → EndsTag rest → (head ++ tail).length ≤ scope.bound →
      8 * (head ++ tail).length ≤ d → ∃ tree stop,
        tagAttribute (rules d) scope (.front scope.bound (head ++ (tail ++ rest)) n) =
          some (tree, .front scope.bound (tail ++ rest) stop) ∧ tree.shape = first) :
    Category.attributes.Reads tags (head ++ tail) (first :: shapes) := by
  intro scope d n rest hscope hrest hbound hdepth
  obtain ⟨tree, stop, htree, rfl⟩ := @hread scope d n rest hscope hrest hbound hdepth
  rw [List.length_append] at hbound hdepth
  obtain ⟨es, stop', hes, rfl, hcount⟩ := @htail scope d stop rest hscope hrest (by omega) (by omega)
  rw [List.append_assoc]
  refine ⟨tree :: es, stop', .cons ?_ htree hes, rfl, ?_⟩
  · have hslash := hmark (tail ++ rest) scope.bound n "/" (by simp)
    have hangle := hmark (tail ++ rest) scope.bound n ">" (by simp)
    simp [atMarks, hslash, hangle]
  · rw [List.length_cons, List.length_append]
    omega

theorem Category.reads_noAttributes : Category.attributes.Reads tags [] [] := by
  intro scope d n rest _ hrest _ _
  obtain ⟨_, htoken⟩ := hrest.exists_mark
  obtain ⟨text, htext, hlexeme⟩ := htoken scope.bound n
  have hany : (["/", ">"].any (isMark (Cursor.front scope.bound rest n).token)) = true :=
    List.any_eq_true.mpr ⟨text, htext, isMark_self hlexeme⟩
  refine ⟨[], n, .nil ?_, rfl, Nat.zero_le _⟩
  rw [List.nil_append]
  exact congrArg (fun found => some (found, Cursor.front scope.bound rest n)) hany

theorem Category.reads_flagAttribute {tail : List Char} (hg : IsSpace g) (hw : IsTagWord w)
    (hcore : Core tags .attributes tail shapes) (htail : Category.attributes.Reads tags tail shapes) :
    Category.attributes.Reads tags (g ++ (w ++ tail)) (.node .tagAttribute (String.ofList w) [] :: shapes) := by
  rw [← List.append_assoc]
  refine Category.reads_attribute htail (by have hpos := hw.length_pos; rw [List.length_append]; omega) ?_ ?_
  · intro s bound n m _
    rw [List.append_assoc]
    exact hw.not_mark hg.gap s bound n m
  · intro scope d n rest _ hrest hbound _
    simp only [List.length_append] at hbound
    obtain ⟨span, hread⟩ := @tagAttribute_flag g (tail ++ rest) w scope (rules d) hw hg.gap
      (hcore.behindName hrest) (by omega) n
    exact ⟨_, _, hread, rfl⟩

theorem Category.reads_textAttribute {quote : Char} {v tail : List Char} (hg : IsSpace g) (hw : IsTagWord w)
    (hv : IsTagString quote v) (htail : Category.attributes.Reads tags tail shapes) :
    Category.attributes.Reads tags (g ++ (w ++ '=' :: quote :: (v ++ quote :: tail)))
      (.node .tagAttribute (String.ofList w) [.node .tagText (String.ofList v) []] :: shapes) := by
  have htext : g ++ (w ++ '=' :: quote :: (v ++ quote :: tail)) =
      g ++ (w ++ '=' :: quote :: (v ++ [quote])) ++ tail := by
    simp
  rw [htext]
  refine Category.reads_attribute htail (by have hpos := hw.length_pos; simp only [List.length_append]; omega) ?_ ?_
  · intro s bound n m _
    rw [List.append_assoc, List.append_assoc]
    exact hw.not_mark hg.gap _ bound n m
  · intro scope d n rest _ _ hbound _
    simp only [List.length_append] at hbound
    have hquote : quote ∈ ['\x22', '\x27', '\x7b'] := by rcases hv.isQuote with rfl | rfl <;> simp
    have hvalue := @attributeValue_string scope (rules d) quote v hv (tail ++ rest) (n + g.length + w.length + 1)
    obtain ⟨span, hread⟩ := tagAttribute_value hw hg.gap hquote (by omega) hvalue
    have hfront : g ++ (w ++ '=' :: quote :: (v ++ [quote])) ++ (tail ++ rest) =
        g ++ w ++ '=' :: quote :: (v ++ quote :: (tail ++ rest)) := by simp
    rw [hfront]
    exact ⟨_, _, hread, rfl⟩

theorem Category.reads_valueAttribute {g₁ g₂ tail : List Char} (hg : IsSpace g) (hw : IsTagWord w) (hg₁ : IsGap g₁)
    (hcore : Core tags .value text [shape]) (h : Category.value.Reads tags text [shape]) (hg₂ : IsGap g₂)
    (htail : Category.attributes.Reads tags tail shapes) :
    Category.attributes.Reads tags (g ++ (w ++ '=' :: '\x7b' :: (g₁ ++ (text ++ (g₂ ++ '\x7d' :: tail)))))
      (.node .tagAttribute (String.ofList w) [.node .tagExpression "" [shape]] :: shapes) := by
  have htext : g ++ (w ++ '=' :: '\x7b' :: (g₁ ++ (text ++ (g₂ ++ '\x7d' :: tail)))) =
      g ++ (w ++ '=' :: '\x7b' :: (g₁ ++ (text ++ (g₂ ++ ['\x7d'])))) ++ tail := by
    simp
  rw [htext]
  refine Category.reads_attribute htail (by have hpos := hw.length_pos; simp only [List.length_append]; omega) ?_ ?_
  · intro s bound n m _
    rw [List.append_assoc, List.append_assoc]
    exact hw.not_mark hg.gap _ bound n m
  · intro scope d n rest hscope _ hbound hdepth
    simp only [List.length_append, List.length_cons, List.length_nil] at hbound hdepth
    obtain ⟨d, rfl⟩ : ∃ d', d = d' + 1 := ⟨d - 1, by omega⟩
    have hat := @Cursor.at_mark_front scope.bound (n + g.length + w.length + 1) '\x7b'
      (g₁ ++ (text ++ (g₂ ++ '\x7d' :: (tail ++ rest)))) (by decide)
    obtain ⟨tree, c₁, stop, hbraced, hclose, rfl⟩ := bracedExpression_value hg₁ hcore h hg₂ hscope (by omega)
      (show 8 * text.length ≤ d by omega) hat
    have hvalue : ∃ span, attributeValue (rules (d + 1)) scope (.front scope.bound ('\x7b' :: (g₁ ++ (text ++
        (g₂ ++ '\x7d' :: (tail ++ rest))))) (n + g.length + w.length + 1)) =
          some (.node .tagExpression span "" [tree], .front scope.bound (tail ++ rest) stop) := by
      have hhere := (@Token.here_code '\x7b' (by decide) (by decide) (by decide) (g₁ ++ (text ++
        (g₂ ++ '\x7d' :: (tail ++ rest)))) scope.bound (n + g.length + w.length + 1)).1
      generalize hc : Cursor.front scope.bound ('\x7b' :: (g₁ ++ (text ++ (g₂ ++ '\x7d' :: (tail ++ rest)))))
        (n + g.length + w.length + 1) = c at hbraced
      replace hhere : c.token.here = '\x7b' :: (g₁ ++ (text ++ (g₂ ++ '\x7d' :: (tail ++ rest)))) := by
        rw [← hc]
        exact hhere
      refine ⟨⟨c.token.start, stop⟩, ?_⟩
      simp [attributeValue, hhere, run_bind_of hbraced, advance_bind_run hclose.sound, hclose.next]
      rfl
    obtain ⟨span, hvalue⟩ := hvalue
    obtain ⟨span', hread⟩ := tagAttribute_value hw hg.gap (by simp) (by omega) hvalue
    have hfront : g ++ (w ++ '=' :: '\x7b' :: (g₁ ++ (text ++ (g₂ ++ ['\x7d'])))) ++ (tail ++ rest) =
        g ++ w ++ '=' :: '\x7b' :: (g₁ ++ (text ++ (g₂ ++ '\x7d' :: (tail ++ rest)))) := by simp
    rw [hfront]
    exact ⟨_, _, hread, rfl⟩

theorem Category.reads_spreadAttribute {g₀ g₁ g₂ tail : List Char} (hg : IsSpace g) (hg₀ : IsGap g₀) (hg₁ : IsGap g₁)
    (h : Category.value.Reads tags text [shape]) (hg₂ : IsGap g₂) (htail : Category.attributes.Reads tags tail shapes) :
    Category.attributes.Reads tags
      (g ++ '\x7b' :: (g₀ ++ '.' :: '.' :: '.' :: (g₁ ++ (text ++ (g₂ ++ '\x7d' :: tail)))))
      (.node .tagSpread "" [shape] :: shapes) := by
  have htext : g ++ '\x7b' :: (g₀ ++ '.' :: '.' :: '.' :: (g₁ ++ (text ++ (g₂ ++ '\x7d' :: tail)))) =
      g ++ '\x7b' :: (g₀ ++ '.' :: '.' :: '.' :: (g₁ ++ (text ++ (g₂ ++ ['\x7d'])))) ++ tail := by
    simp
  rw [htext]
  refine Category.reads_attribute htail (by simp only [List.length_append, List.length_cons]; omega) ?_ ?_
  · intro s bound n m hm
    have hmarks : ∀ m ∈ ["/", ">"], "\x7b" ≠ m := by decide
    rw [List.append_assoc, List.cons_append]
    exact isMark_of_other (Cursor.at_mark hg.gap (by decide)).lexeme (hmarks m hm)
  · intro scope d n rest hscope _ hbound hdepth
    simp only [List.length_append, List.length_cons, List.length_nil] at hbound hdepth
    simp only [List.append_assoc, List.cons_append, List.nil_append]
    have hopen := @Cursor.at_mark scope.bound n '\x7b' g
      (g₀ ++ '.' :: '.' :: '.' :: (g₁ ++ (text ++ (g₂ ++ '\x7d' :: (tail ++ rest))))) hg.gap (by decide)
    have hdots := @Cursor.at_dots scope.bound (n + g.length + 1) g₀
      (g₁ ++ (text ++ (g₂ ++ '\x7d' :: (tail ++ rest)))) hg₀
    obtain ⟨tree, stop, hvalue, rfl, _⟩ := @h (bracketScope scope) d (n + g.length + 1 + g₀.length + 3) g₁
      (g₂ ++ '\x7d' :: (tail ++ rest)) hscope hg₁ (closesText_close hg₂ (by decide) _)
      (by simp only [bracketScope]; omega) (by omega) shape List.mem_cons_self
    have hclose := @Cursor.at_mark scope.bound stop '\x7d' g₂ (tail ++ rest) hg₂ (by decide)
    have hread : bracketed (rules d .assignment) scope ((Cursor.front scope.bound (g₀ ++ '.' :: '.' :: '.' ::
        (g₁ ++ (text ++ (g₂ ++ '\x7d' :: (tail ++ rest))))) (n + g.length + 1)).next scope.bound) =
          some (tree, .front scope.bound (g₂ ++ '\x7d' :: (tail ++ rest)) stop) := by
      rw [hdots.next, ← List.append_assoc g₁]
      exact hvalue
    have hdotted := @run_expectMark scope _ "..." (isMark_self hdots.lexeme) hdots.sound
    have hclosed := @run_expectMark scope _ "\x7d" (isMark_self hclose.lexeme) hclose.sound
    rw [hclose.next] at hclosed
    rw [← hopen.next] at hdotted hread
    generalize Cursor.front scope.bound (g ++ '\x7b' :: (g₀ ++ '.' :: '.' :: '.' :: (g₁ ++ (text ++
      (g₂ ++ '\x7d' :: (tail ++ rest)))))) n = c at hopen hdotted hread ⊢
    refine ⟨.node .tagSpread ⟨c.token.start, stop + g₂.length + 1⟩ "" [tree], stop + g₂.length + 1, ?_, rfl⟩
    simp [tagAttribute, isMark_self hopen.lexeme, advance_bind_run hopen.sound, run_bind_of hdotted, run_bind_of hread,
      run_bind_of hclosed]
    rfl

/-! ## Between tags -/

theorem Cursor.At.faulty {bound : Nat} {lexeme : Lexeme} (h : c.At bound lexeme rest stop) : c.faulty = false :=
  congrArg Cursor.faulty h.next

theorem iterate_inl {σ α : Type} {step : σ → Parse (σ ⊕ α)} {x y : σ}
    (h : step x scope c = some (.inl y, c₁)) (k : Nat) :
    iterate step (k + 1) x scope c = iterate step k y scope c₁ := by
  rw [iterate, run_bind_of h]

theorem iterate_inr {σ α : Type} {step : σ → Parse (σ ⊕ α)} {x : σ} {a : α} (h : step x scope c = some (.inr a, c₁))
    (k : Nat) : iterate step (k + 1) x scope c = some (a, c₁) := by
  rw [iterate, run_bind_of h]
  rfl

theorem iterate_congr {σ α : Type} {step : σ → Parse (σ ⊕ α)} {x y : σ}
    (h : step x scope c = step y scope c) (k : Nat) :
    iterate step (k + 1) x scope c = iterate step (k + 1) y scope c := by
  rw [iterate, iterate, run_bind, run_bind, h]

/-- What stands between tags behind a piece of text starts with a tag or a brace. -/
def StartsChild (s : List Char) : Prop :=
  s.head? = some '<' ∨ s.head? = some '\x7b'

theorem span_child (ht : ∀ e ∈ t, e ∉ ['<', '>', '\x7b', '\x7d', '\n']) (hs : StartsChild s) :
    ((t ++ s).span fun e => e != '<' && e != '\x7b') = (t, s) := by
  have hall : ∀ e ∈ t, (e != '<' && e != '\x7b') = true := by
    intro e he
    have hplain := ht e he
    simp only [List.mem_cons, List.not_mem_nil, or_false, not_or] at hplain
    simp [hplain]
  have hend : s.takeWhile (fun e => e != '<' && e != '\x7b') = [] ∧
      s.dropWhile (fun e => e != '<' && e != '\x7b') = s := by
    cases s with
    | nil => exact ⟨rfl, rfl⟩
    | cons e s =>
        rcases hs with hs | hs
        · cases hs
          exact ⟨rfl, rfl⟩
        · cases hs
          exact ⟨rfl, rfl⟩
  rw [List.span_eq_takeWhile_dropWhile, List.takeWhile_append_of_pos hall, List.dropWhile_append_of_pos hall, hend.1,
    hend.2, List.append_nil]

theorem childRound_start (hs : StartsChild s) (hc : c.faulty = false) (done : List Tree) (n : Nat) :
    childRound rs (done, s, n) scope c = childBehind rs done scope (.front scope.bound s n) := by
  have hspan := @span_child s [] (List.forall_mem_nil _) hs
  rw [List.nil_append] at hspan
  simp only [childRound, hspan, hasLooseBracket, List.any_nil, Bool.not_false, require_bind_run, if_true,
    List.isEmpty_nil,
    List.length_nil, Nat.add_zero]
  rw [run_bind_of (run_resumeAt hc _ _)]

/-- A piece of text joins what stands behind it. -/
theorem childRound_text (ht : IsTagText t) (hs : StartsChild s) (hc : c.faulty = false) (done : List Tree) (n : Nat) :
    childRound rs (done, t ++ s, n) scope c =
      childRound rs (.node .tagText ⟨n, n + t.length⟩ (String.ofList t) [] :: done, s, n + t.length) scope c := by
  have hspan := span_child ht.plain hs
  have hloose : hasLooseBracket t = false := by
    rw [hasLooseBracket, List.any_eq_false]
    intro e he
    have hplain := ht.plain e he
    simp only [List.mem_cons, List.not_mem_nil, or_false, not_or] at hplain
    simp [hplain]
  have hne : t.isEmpty = false := by
    rw [List.isEmpty_eq_false_iff]
    exact ht.ne_nil
  rw [childRound_start hs hc]
  simp only [childRound, hspan, hloose, Bool.not_false, require_bind_run, if_true, hne, Bool.false_eq_true, if_false]
  rw [run_bind_of (run_resumeAt hc _ _)]

theorem childBehind_close (hrest : ∀ e ∈ rest.head?, e ∉ ['/', '*', '=']) (done : List Tree) (n : Nat) :
    childBehind rs done scope (.front scope.bound ('<' :: '/' :: rest) n) =
      some (.inr done.reverse, .front scope.bound rest (n + 1 + 1)) := by
  have hat := @Cursor.at_angle scope.bound n [] ('/' :: rest) .nil (by simp)
  have hslash := @Cursor.at_slash scope.bound (n + 1) [] rest .nil hrest
  rw [List.nil_append] at hat hslash
  rw [List.length_nil, Nat.add_zero] at hat hslash
  have hnext := hat.next
  have hadvance := @run_advance scope _ hslash.sound
  rw [hslash.next] at hadvance
  generalize Cursor.front scope.bound ('<' :: '/' :: rest) n = c at hat hnext ⊢
  simp [childBehind, isMark_of_other hat.lexeme (show "<" ≠ "\x7b" by decide), isMark_self hat.lexeme,
    advance_bind_run hat.sound, hnext, isMark_self hslash.lexeme, run_map, hadvance]

theorem childBehind_braces {braced : Option Tree} (hat : c.At scope.bound (.mark "\x7b") s n)
    (hbraced : bracedExpression rs scope c = some (braced, c₁)) (hclose : c₁.At scope.bound (.mark "\x7d") rest stop)
    (done : List Tree) : childBehind rs done scope c =
      some (.inl (.node .tagExpression ⟨c.token.start, stop⟩ "" braced.toList :: done, rest, stop), c₁) := by
  simp [childBehind, isMark_self hat.lexeme, run_bind_of hbraced, run_map, hclose.behind,
    hclose.stop_eq]

theorem childBehind_tag (hat : c.At scope.bound (.mark "<") s n)
    (hslash : isMark (Cursor.front scope.bound s n).token "/" = false) (htag : rs .element scope c = some (e, c₁))
    (hclose : c₁.At scope.bound (.mark ">") rest stop) (done : List Tree) :
    childBehind rs done scope c = some (.inl (e :: done, rest, stop), c₁) := by
  rw [← hat.next] at hslash
  simp [childBehind, isMark_of_other hat.lexeme (show "<" ≠ "\x7b" by decide), isMark_self hat.lexeme, hslash,
    run_bind_of htag, run_map, hclose.behind, hclose.stop_eq]

/-- What stands between tags goes up to the closing one. -/
theorem Core.startsChild (h : Core tags .children text shapes) (rest : List Char)
    (hends : ∀ e ∈ text.head?, e = '<' ∨ e = '\x7b') :
    StartsChild (text ++ '<' :: '/' :: rest) := by
  cases text with
  | nil => exact .inl rfl
  | cons e text => exact (hends e rfl).imp (congrArg some) (congrArg some)

/-- Behind the bracket of a tag stands its name, or the bracket that ends a nameless one. -/
theorem Core.exists_name (h : Core tags .tag text shapes) (hbound : text.length ≤ bound) (rest : List Char) (n : Nat) :
    ∃ k, text = '<' :: k ∧ (isName (Cursor.front bound (k ++ rest) n).token = true ∨
      (Cursor.front bound (k ++ rest) n).token.lexeme = .mark ">") := by
  have hname : ∀ {w s : List Char}, IsTagName w → BehindName s → w.length ≤ bound →
      isName (Cursor.front bound (w ++ s) n).token = true := by
    intro w s hw hs hbound
    cases hw with
    | word hw => exact (@IsTagWord.token bound [] s w hw .nil hs.word hbound n).1
    | @member w more hw _ =>
        rw [List.length_append] at hbound
        rw [List.append_assoc]
        exact (@IsTagWord.token bound [] ('.' :: (more ++ s)) w hw .nil (endsTagWord_point _) (by omega) n).1
  cases h with
  | @lone w attributes g shapes hw hattributes hg =>
      simp only [List.length_cons, List.length_append] at hbound
      have hends : EndsTag (g ++ ['/', '>'] ++ rest) := ⟨g, rest, hg, .inl (by simp)⟩
      refine ⟨_, rfl, .inl ?_⟩
      rw [List.append_assoc, List.append_assoc]
      exact hname hw (hattributes.behindName hends) (by omega)
  | @pair w attributes g inner g' shapes parts hw hattributes hg hinner hg' =>
      simp only [List.length_cons, List.length_append] at hbound
      have hends : EndsTag (g ++ '>' :: (inner ++ '<' :: '/' :: (w ++ (g' ++ ['>']))) ++ rest) :=
        ⟨g, inner ++ '<' :: '/' :: (w ++ (g' ++ ['>'])) ++ rest, hg, .inr (by simp)⟩
      refine ⟨_, rfl, .inl ?_⟩
      rw [List.append_assoc, List.append_assoc]
      exact hname hw (hattributes.behindName hends) (by omega)
  | fragment => exact ⟨_, rfl, .inr (Cursor.at_mark_front (by decide)).lexeme⟩

theorem Category.reads_noChildren : Category.children.Reads tags [] [] := by
  intro scope d n rest k done c _ hrest _ _ hc hk
  obtain ⟨k, rfl⟩ : ∃ k', k = k' + 1 := ⟨k - 1, by rw [List.length_nil] at hk; omega⟩
  have hround := (childRound_start (.inl rfl) hc done n).trans (@childBehind_close rest scope (rules d) hrest done n)
  refine ⟨[], n + 1 + 1, ?_, rfl⟩
  rw [List.nil_append, iterate_inr hround, List.append_nil]

theorem Category.reads_textChild {tail : List Char} (ht : IsTagText t) (hcore : Core tags .children tail shapes)
    (hends : ∀ e ∈ tail.head?, e = '<' ∨ e = '\x7b') (h : Category.children.Reads tags tail shapes) :
    Category.children.Reads tags (t ++ tail) (.node .tagText (String.ofList t) [] :: shapes) := by
  intro scope d n rest k done c hscope hrest hbound hdepth hc hk
  rw [List.length_append] at hbound hdepth hk
  obtain ⟨k, rfl⟩ : ∃ k', k = k' + 1 := ⟨k - 1, by omega⟩
  obtain ⟨es, stop, hread, rfl⟩ := @h scope d (n + t.length) rest (k + 1)
    (.node .tagText ⟨n, n + t.length⟩ (String.ofList t) [] :: done) c hscope hrest (by omega) (by omega) hc (by omega)
  have hround := @childRound_text (tail ++ '<' :: '/' :: rest) t scope c (rules d) ht
    (hcore.startsChild rest hends) hc done n
  refine ⟨.node .tagText ⟨n, n + t.length⟩ (String.ofList t) [] :: es, stop, ?_, rfl⟩
  rw [List.append_assoc, iterate_congr hround, hread, List.reverse_cons, List.append_assoc]
  rfl

/-- A child that takes a round of its own. -/
theorem Category.reads_child {head tail : List Char} {first : Shape} (h : Category.children.Reads tags tail shapes)
    (hhead : StartsChild head) (hread : ∀ ⦃scope d n rest⦄, scope.Fits tags → head.length ≤ scope.bound →
      8 * head.length ≤ d → ∀ done, ∃ tree stop c₁,
        childBehind (rules d) done scope (.front scope.bound (head ++ rest) n) =
        some (.inl (tree :: done, rest, stop), c₁) ∧ c₁.faulty = false ∧ tree.shape = first) :
    Category.children.Reads tags (head ++ tail) (first :: shapes) := by
  intro scope d n rest k done c hscope hrest hbound hdepth hc hk
  rw [List.length_append] at hbound hdepth hk
  obtain ⟨k, rfl⟩ : ∃ k', k = k' + 1 := ⟨k - 1, by omega⟩
  have hstarts : StartsChild (head ++ (tail ++ '<' :: '/' :: rest)) := by
    rcases hhead with hhead | hhead
    · exact .inl (by rw [List.head?_append, hhead, Option.some_or])
    · exact .inr (by rw [List.head?_append, hhead, Option.some_or])
  have hpos : 0 < head.length := by
    cases head with
    | nil => rcases hhead with hhead | hhead <;> cases hhead
    | cons => exact Nat.succ_pos _
  obtain ⟨tree, stop, c₁, hround, hc₁, rfl⟩ := @hread scope d n (tail ++ '<' :: '/' :: rest) hscope
    (by omega) (by omega) done
  obtain ⟨es, stop', hes, rfl⟩ := @h scope d stop rest k (tree :: done) c₁ hscope hrest (by omega)
    (by omega) hc₁ (by omega)
  refine ⟨tree :: es, stop', ?_, rfl⟩
  rw [List.append_assoc, iterate_inl ((childRound_start hstarts hc done n).trans hround), hes, List.reverse_cons,
    List.append_assoc]
  rfl

theorem Category.reads_valueChild {g₁ g₂ tail : List Char} (hg₁ : IsGap g₁) (hcore : Core tags .value text [shape])
    (h : Category.value.Reads tags text [shape]) (hg₂ : IsGap g₂) (htail : Category.children.Reads tags tail shapes) :
    Category.children.Reads tags ('\x7b' :: (g₁ ++ (text ++ (g₂ ++ '\x7d' :: tail))))
      (.node .tagExpression "" [shape] :: shapes) := by
  have htext : '\x7b' :: (g₁ ++ (text ++ (g₂ ++ '\x7d' :: tail))) =
    '\x7b' :: (g₁ ++ (text ++ (g₂ ++ ['\x7d']))) ++ tail := by
    simp
  rw [htext]
  refine Category.reads_child htail (.inr rfl) ?_
  intro scope d n rest hscope hbound hdepth done
  simp only [List.length_append, List.length_cons, List.length_nil] at hbound hdepth
  simp only [List.append_assoc, List.cons_append, List.nil_append]
  obtain ⟨d, rfl⟩ : ∃ d', d = d' + 1 := ⟨d - 1, by omega⟩
  have hat := @Cursor.at_mark_front scope.bound n '\x7b' (g₁ ++ (text ++ (g₂ ++ '\x7d' :: rest))) (by decide)
  obtain ⟨tree, c₁, stop, hbraced, hclose, rfl⟩ := bracedExpression_value hg₁ hcore h hg₂ hscope (by omega)
    (show 8 * text.length ≤ d by omega) hat
  exact ⟨_, stop, c₁, childBehind_braces hat hbraced hclose done, hclose.faulty, rfl⟩

theorem Category.reads_commentChild {tail : List Char} (hg : IsGap g)
    (htail : Category.children.Reads tags tail shapes) :
    Category.children.Reads tags ('\x7b' :: (g ++ '\x7d' :: tail)) (.node .tagExpression "" [] :: shapes) := by
  have htext : '\x7b' :: (g ++ '\x7d' :: tail) = '\x7b' :: (g ++ ['\x7d']) ++ tail := by simp
  rw [htext]
  refine Category.reads_child htail (.inr rfl) ?_
  intro scope d n rest _ _ _ done
  simp only [List.append_assoc, List.cons_append, List.nil_append]
  have hat := @Cursor.at_mark_front scope.bound n '\x7b' (g ++ '\x7d' :: rest) (by decide)
  have hclose := @Cursor.at_mark scope.bound (n + 1) '\x7d' g rest hg (by decide)
  exact ⟨_, _, _, childBehind_braces hat (bracedExpression_gap hg hat) hclose done, hclose.faulty, rfl⟩

theorem Category.reads_tagChild {tail : List Char} (hcore : Core tags .tag text [shape])
    (h : Category.tag.Reads tags text [shape]) (htail : Category.children.Reads tags tail shapes) :
    Category.children.Reads tags (text ++ tail) (shape :: shapes) := by
  obtain ⟨k, hangle, hmarkup⟩ := hcore.exists_angle
  refine Category.reads_child htail (.inl (by rw [hangle]; rfl)) ?_
  intro scope d n rest hscope hbound hdepth done
  have hpos := hcore.length_pos rfl
  obtain ⟨d, rfl⟩ : ∃ d', d = d' + 1 := ⟨d - 1, by omega⟩
  obtain ⟨tree, c₁, stop, htag, hclose, rfl, _⟩ := @h scope d n [] rest hscope .nil hbound
    (by omega) shape List.mem_cons_self
  obtain ⟨k', hangle', hnext⟩ := hcore.exists_name hbound rest (n + 1)
  obtain rfl := (List.cons.inj (hangle.symm.trans hangle')).2
  have hslash : isMark (Cursor.front scope.bound (k ++ rest) (n + 1)).token "/" = false := by
    rcases hnext with hname | hclose
    · rw [isName] at hname
      split at hname
      · rename_i hlexeme
        exact isMark_of_word hlexeme _
      · cases hname
    · exact isMark_of_other hclose (by decide)
  have hat := @Cursor.at_angle scope.bound n [] (k ++ rest) .nil (hmarkup rest)
  rw [List.nil_append, hangle] at htag
  rw [hangle, List.cons_append]
  exact ⟨tree, stop, c₁, childBehind_tag hat hslash htag hclose done, hclose.faulty, rfl⟩

/-! ## Tags -/

theorem run_finishHere (kind : Kind) (start : Nat) (name : String) (parts : List Tree) :
    finishHere kind start name parts scope c = some (.node kind ⟨start, c.token.stop⟩ name parts, c) := rfl

/-- What is read of a tag behind its attributes. -/
def tagTail (rs : Rules) (start : Nat) (name : String) (attributes : List Tree) : Parse Tree := do
  if ← eatMark "/" then
    require (← atMark ">")
    return ← finishHere .tag start name attributes
  let children ← tagChildren rs
  let closing ← tagName
  require (closing.name == name && (← atMark ">"))
  finishHere .tag start name (attributes ++ children)

/-- A tag up to its attributes. -/
theorem element_attributes {attributes : List Char} (hw : IsTagName w) (hg : IsGap g)
    (hcore : Core tags .attributes attributes shapes) (h : Category.attributes.Reads tags attributes shapes)
    (hscope : scope.Fits tags) (hrest : EndsTag rest) (hbound : w.length + attributes.length ≤ scope.bound)
    (hdepth : 8 * attributes.length ≤ d) (n : Nat) : ∃ start es stop,
      Grammar.element (rules d) scope (.front scope.bound (g ++ '<' :: (w ++ (attributes ++ rest))) n) =
        tagTail (rules d) start (String.ofList w) es scope (.front scope.bound rest stop) ∧
          Tree.shapes es = shapes := by
  have hstart : isIdentifierStart '!' = false := by decide
  have hbehind := hcore.behindName hrest
  have hat := @Cursor.at_angle scope.bound n g (w ++ (attributes ++ rest)) hg (hw.head?_ne hstart _)
  obtain ⟨name, hname, hvalue⟩ := @IsTagName.read [] (attributes ++ rest) w scope hw .nil hbehind (by omega)
    (n + g.length + 1)
  have hclose : isMark (Cursor.front scope.bound (w ++ (attributes ++ rest)) (n + g.length + 1)).token ">" = false := by
    cases hw with
    | word hw => exact @IsTagWord.not_mark [] w hw .nil _ _ _ _
    | @member w more hw _ =>
        rw [List.append_assoc]
        exact @IsTagWord.not_mark [] w hw .nil _ _ _ _
  rw [List.nil_append, List.length_nil, Nat.add_zero] at hname
  obtain ⟨es, stop, hes, hshapes, hcount⟩ := @h scope d (n + g.length + 1 + w.length) rest hscope hrest
    (by omega) hdepth
  have hattributes := hes.run (show es.length ≤ scope.bound by omega)
  have hangle := fun n => hbehind.not_mark scope.bound n "<" (by simp)
  have hopen := @run_expectMark scope _ "<" (isMark_self hat.lexeme) hat.sound
  rw [hat.next] at hopen
  generalize Cursor.front scope.bound (g ++ '<' :: (w ++ (attributes ++ rest))) n = c at hopen ⊢
  refine ⟨c.token.start, es, stop, ?_, hshapes⟩
  simp [Grammar.element, run_bind_of hopen, hclose, run_bind_of hname, hangle, run_bind_of hattributes, hvalue,
    tagTail]

theorem tagChildren_eq (rs : Rules) : tagChildren rs = (do
    let t ← token
    repeatFrom (([] : List Tree), t.rest, t.stop) (childRound rs)) := rfl

/-- What stands between tags is read from the bracket that ends the opening one on. -/
theorem Category.Reads.tagChildren (h : Category.children.Reads tags inner parts) (hscope : scope.Fits tags)
    (hrest : ∀ e ∈ rest.head?, e ∉ ['/', '*', '=']) (hbound : inner.length ≤ scope.bound)
    (hdepth : 8 * inner.length ≤ d)
    (hat : c.At scope.bound (.mark ">") (inner ++ '<' :: '/' :: rest) n) : ∃ es stop,
      Grammar.tagChildren (rules d) scope c = some (es, .front scope.bound rest stop) ∧ Tree.shapes es = parts := by
  obtain ⟨es, stop, hread, hshapes⟩ := @h scope d n rest (scope.bound + 1) [] c hscope hrest hbound hdepth hat.faulty
    (by omega)
  refine ⟨es, stop, ?_, hshapes⟩
  rw [tagChildren_eq, token_bind_run, hat.behind, hat.stop_eq, repeatFrom, read_bind_run]
  exact hread

theorem Category.reads_lone {attributes : List Char} (hw : IsTagName w)
    (hcore : Core tags .attributes attributes shapes)
    (h : Category.attributes.Reads tags attributes shapes) (hg : IsGap g) :
    Category.tag.Reads tags ('<' :: (w ++ (attributes ++ (g ++ ['/', '>']))))
      [.node .tag (String.ofList w) shapes] := by
  intro scope d n g' rest hscope hg' hbound hdepth
  rw [List.forall_mem_singleton]
  simp only [List.length_cons, List.length_append, List.length_nil] at hbound hdepth
  simp only [List.append_assoc, List.cons_append, List.nil_append]
  obtain ⟨start, es, stop, hread, rfl⟩ := @element_attributes tags d g'
    (g ++ '/' :: '>' :: rest) w _ scope attributes hw hg'
    hcore h hscope ⟨g, rest, hg, .inl rfl⟩ (by omega) (by omega) n
  have hslash := @Cursor.at_slash scope.bound stop g ('>' :: rest) hg (by simp)
  have hclose := @Cursor.at_mark_front scope.bound (stop + g.length + 1) '>' rest (by decide)
  refine ⟨.node .tag ⟨start, stop + g.length + 1 + 1⟩ (String.ofList w) es, _, _, ?_, hclose, rfl, rfl⟩
  rw [hread]
  simp [tagTail, isMark_self hslash.lexeme, advance_bind_run hslash.sound, hslash.next, isMark_self hclose.lexeme,
    run_finishHere, hclose.stop_eq]

theorem Category.reads_pair {attributes g₁ : List Char} (hw : IsTagName w)
    (hcore : Core tags .attributes attributes shapes)
    (h : Category.attributes.Reads tags attributes shapes) (hg : IsGap g)
    (hinner : Category.children.Reads tags inner parts)
    (hg₁ : IsGap g₁) : Category.tag.Reads tags
      ('<' :: (w ++ (attributes ++ (g ++ '>' :: (inner ++ '<' :: '/' :: (w ++ (g₁ ++ ['>'])))))))
      [.node .tag (String.ofList w) (shapes ++ parts)] := by
  intro scope d n g' rest hscope hg' hbound hdepth
  rw [List.forall_mem_singleton]
  simp only [List.length_cons, List.length_append, List.length_nil] at hbound hdepth
  simp only [List.append_assoc, List.cons_append, List.nil_append]
  have hstarts : ∀ e ∈ ['/', '*', '='], isIdentifierStart e = false := by decide
  obtain ⟨start, es, stop, hread, rfl⟩ := @element_attributes tags d g'
    (g ++ '>' :: (inner ++ '<' :: '/' :: (w ++ (g₁ ++ '>' :: rest)))) w _ scope attributes hw hg' hcore h hscope
    ⟨g, _, hg, .inr rfl⟩ (by omega) (by omega) n
  have hopen := @Cursor.at_mark scope.bound stop '>' g
    (inner ++ '<' :: '/' :: (w ++ (g₁ ++ '>' :: rest))) hg (by decide)
  obtain ⟨children, stop', hchildren, rfl⟩ := hinner.tagChildren hscope
    (fun e he hmem => hw.head?_ne (hstarts e hmem) _ he) (by omega) (show 8 * inner.length ≤ d by omega) hopen
  have hends : EndsTag (g₁ ++ '>' :: rest) := ⟨g₁, rest, hg₁, .inr rfl⟩
  obtain ⟨closing, hname, hvalue⟩ := @IsTagName.read [] (g₁ ++ '>' :: rest) w scope hw .nil hends.behindName
    (by omega) stop'
  have hclose := @Cursor.at_mark scope.bound (stop' + w.length) '>' g₁ rest hg₁ (by decide)
  rw [List.nil_append, List.length_nil, Nat.add_zero] at hname
  refine ⟨.node .tag ⟨start, stop' + w.length + g₁.length + 1⟩ (String.ofList w) (es ++ children), _, _, ?_,
    hclose, ?_, rfl⟩
  · rw [hread]
    simp [tagTail, isMark_of_other hopen.lexeme (show String.ofList ['>'] ≠ "/" by decide), run_bind_of hchildren,
      run_bind_of hname, hvalue, isMark_self hclose.lexeme, run_finishHere, hclose.stop_eq]
  · simp [Tree.shape, shapes_eq_map]

theorem Category.reads_fragment (h : Category.children.Reads tags inner parts) :
    Category.tag.Reads tags ('<' :: '>' :: (inner ++ ['<', '/', '>'])) [.node .fragment "" parts] := by
  intro scope d n g rest hscope hg hbound hdepth
  rw [List.forall_mem_singleton]
  simp only [List.length_cons, List.length_append, List.length_nil] at hbound hdepth
  simp only [List.append_assoc, List.cons_append, List.nil_append]
  have hat := @Cursor.at_angle scope.bound n g ('>' :: (inner ++ '<' :: '/' :: '>' :: rest)) hg (by simp)
  have hopen := @Cursor.at_mark_front scope.bound (n + g.length + 1) '>'
    (inner ++ '<' :: '/' :: '>' :: rest) (by decide)
  obtain ⟨children, stop, hchildren, rfl⟩ := h.tagChildren hscope (by simp) (by omega)
    (show 8 * inner.length ≤ d by omega) hopen
  have hclose := @Cursor.at_mark_front scope.bound stop '>' rest (by decide)
  have hangle := @run_expectMark scope _ "<" (isMark_self hat.lexeme) hat.sound
  rw [hat.next] at hangle
  generalize Cursor.front scope.bound (g ++ '<' :: '>' :: (inner ++ '<' :: '/' :: '>' :: rest)) n = c at hangle ⊢
  refine ⟨.node .fragment ⟨c.token.start, stop + 1⟩ "" children, _, _, ?_, hclose, rfl, rfl⟩
  simp [Grammar.element, run_bind_of hangle, isMark_self hopen.lexeme, run_bind_of hchildren, isMark_self hclose.lexeme,
    run_finishHere, hclose.stop_eq]

/-! ## Tags as values -/

theorem atElement_tag (htags : scope.features.tags = true) (hopen : c.token.lexeme = .mark "<")
    (hname : isName (c.next scope.bound).token = true ∨ (c.next scope.bound).token.lexeme = .mark ">") :
    atElement scope c = some (true, c) := by
  have hnext : (isName (c.next scope.bound).token || isMark (c.next scope.bound).token ">") = true := by
    rw [Bool.or_eq_true]
    exact hname.imp id isMark_self
  simp [atElement, htags, isMark_self hopen, hnext]

/-- A tag is an operand without steps. -/
theorem plainAssignment_tag (htags : scope.features.tags = true) (hgenerator : scope.inGenerator = false)
    (hopen : c.token.lexeme = .mark "<")
    (hname : isName (c.next scope.bound).token = true ∨ (c.next scope.bound).token.lexeme = .mark ">")
    (helement : Grammar.element (rules d) scope c = some (e, c₁)) (hclose : c₁.At scope.bound (.mark ">") rest stop)
    (hrest : ClosesText rest) : plainAssignment (rules (d + 2)) scope c = some (e, .front scope.bound rest stop) := by
  have hcloses := hrest.closes scope.bound stop
  have harrow : arrow? (rules (d + 2)) scope c = some (none, c) := by
    have hreference : isReference c.token = false := by rw [isReference, hopen]
    have hasync : asyncArrow? (rules (d + 2)) scope c = some (none, c) := by
      simp [asyncArrow?, isWord_of_mark hopen]
    have hbracket : atArrow (rules (d + 2)) false scope c = some (false, c) := by
      simp [atArrow, isMark_of_other hopen (show "<" ≠ "(" by decide)]
    simp [arrow?, run_bind_of hasync, hreference, isWord_of_mark hopen, run_bind_of hbracket]
  have hleft : leftSide (rules (d + 1)) scope c = some (e, .front scope.bound rest stop) := by
    have hread : rules (d + 1) .element scope c = some (e, c₁) := helement
    have hexpect := @run_expectMark scope c₁ ">" (isMark_self hclose.lexeme) hclose.sound
    rw [hclose.next] at hexpect
    simp [leftSide, run_bind_of (atElement_tag htags hopen hname), run_bind_of hread, run_map, hexpect]
  have hunary : rules (d + 2) .unary scope c = some (e, .front scope.bound rest stop) := by
    have hmarks : ∀ m ∈ ["++", "--", "+", "-", "~", "!"], isMark c.token m = false := by
      have hother : ∀ m ∈ ["++", "--", "+", "-", "~", "!"], "<" ≠ m := by decide
      exact fun m hm => isMark_of_other hopen (hother m hm)
    have hangle : eatMarkIf (scope.features.types && !scope.features.tags) "<" scope c = some (false, c) := by
      rw [eatMarkIf, htags, Bool.not_true, Bool.and_false, if_neg Bool.false_ne_true]
      rfl
    have hoperator : unaryOperator? c.token = none := by
      simp [unaryOperator?, isWord_of_mark hopen, hmarks]
    have hplus : isMark (Cursor.front scope.bound rest stop).token "++" = false := isMark_of_closes hcloses (by decide)
    have hminus : isMark (Cursor.front scope.bound rest stop).token "--" = false := isMark_of_closes hcloses (by decide)
    show unary (rules (d + 1)) scope c = _
    simp [unary, run_bind_of hangle, hmarks, isWord_of_mark hopen, hoperator, run_bind_of hleft, hplus, hminus]
  have hoperators : rules (d + 2) (.operators e 0) scope (.front scope.bound rest stop) =
      some (e, .front scope.bound rest stop) := operators_closes hcloses 0
  simp [plainAssignment, eatWordIf, hgenerator, run_bind_of harrow,
    run_bind_of (conditional_operand hunary hoperators hcloses), assignmentTail_closes hcloses]

/-- Typed scripts try a tag before they look for the type parameters of a function.  The tag is read alike where
faults are passed over. -/
theorem assignment_tag {motive : Tree × Cursor → Prop} (htags : scope.features.tags = true)
    (hopen : c.token.lexeme = .mark "<")
    (hname : isName (c.next scope.bound).token = true ∨ (c.next scope.bound).token.lexeme = .mark ">")
    (hplain : ∀ lenient, ∃ r, plainAssignment rs { scope with lenient := lenient } c = some r ∧ motive r) :
    ∃ r, assignment rs scope c = some r ∧ motive r := by
  have hnext : (isName (c.next scope.bound).token || isMark (c.next scope.bound).token ">") = true := by
    rw [Bool.or_eq_true]
    exact hname.imp id isMark_self
  cases htyped : scope.features.types with
  | false =>
      obtain ⟨r, hread, hr⟩ := hplain scope.lenient
      exact ⟨r, by simpa [assignment, htyped] using hread, hr⟩
  | true =>
      obtain ⟨⟨e, c'⟩, hread, hr⟩ := hplain true
      have hattempt : attempt (plainAssignment rs) scope c = some (some e, c') := by
        rw [attempt, tryRule, run_within, hread]
      refine ⟨_, ?_, hr⟩
      simp [assignment, htyped, htags, isMark_self hopen, hnext, run_bind_of hattempt]

theorem Category.reads_tagged (htags : tags = true) (hcore : Core tags .tag text [shape])
    (h : Category.tag.Reads tags text [shape]) : Category.value.Reads tags text [shape] := by
  intro scope d n g rest hscope hg hrest hbound hdepth
  replace hrest : ClosesText rest := hrest
  rw [List.forall_mem_singleton]
  have hpos := hcore.length_pos rfl
  obtain ⟨d, rfl⟩ : ∃ d', d = d' + 3 := ⟨d - 3, by omega⟩
  obtain ⟨k, hangle, hmarkup⟩ := hcore.exists_angle
  obtain ⟨k', hangle', hname⟩ := hcore.exists_name hbound rest (n + g.length + 1)
  obtain rfl := (List.cons.inj (hangle.symm.trans hangle')).2
  have hat := @Cursor.at_angle scope.bound n g (k ++ rest) hg (hmarkup rest)
  rw [← hat.next] at hname
  have htext : g ++ text ++ rest = g ++ '<' :: (k ++ rest) := by
    rw [hangle, List.append_assoc, List.cons_append]
  rw [← htext] at hat hname
  have hplain : ∀ lenient, ∃ r, plainAssignment (rules (d + 2)) { scope with lenient := lenient }
      (.front scope.bound (g ++ text ++ rest) n) = some r ∧
        ∃ stop, r.2 = .front scope.bound rest stop ∧ r.1.shape = shape ∧ r.1.span.stop = stop := by
    intro lenient
    obtain ⟨tree, c₁, stop, hread, hclose, hshape, hstop⟩ := @h { scope with lenient := lenient } d n g rest hscope hg
      hbound (by omega) shape List.mem_cons_self
    exact ⟨_, plainAssignment_tag (hscope.2 htags) hscope.1 hat.lexeme hname hread hclose hrest, stop,
      rfl, hshape, hstop⟩
  obtain ⟨⟨tree, c'⟩, hread, stop, rfl, hshape, hstop⟩ := assignment_tag (hscope.2 htags) hat.lexeme hname hplain
  exact ⟨tree, stop, hread, hshape, hstop⟩

/-! ## All texts -/

/-- A text of the syntax is read wherever its class is asked for. -/
theorem Core.reads (h : Core tags category text shapes) : category.Reads tags text shapes := by
  induction h with
  | name hw hname _ => exact Category.reads_name hw hname
  | literal hw hmem => exact Category.reads_literal hw hmem
  | string hquote v => exact Category.reads_string hquote v
  | paren hinner hne ih => exact Category.reads_paren ih hne hinner.hasLooseDefault
  | array _ ih => exact Category.reads_array ih
  | object _ ih => exact Category.reads_object ih
  | nothing => exact Category.reads_nothing
  | memberStep hg hg' hw hrest ih => exact Category.reads_memberStep hg hg' hw ih fun _ h =>
    (hrest.behindOperand h).word
  | indexStep hg hg₁ _ hg₂ _ ih ih' => exact Category.reads_indexStep hg hg₁ hg₂ ih ih'
  | callStep hg _ _ ih ih' => exact Category.reads_callStep hg ih ih'
  | operand htext hrest ih ih' => exact Category.reads_operand htext hrest ih ih'
  | number hw => exact Category.reads_number hw
  | function hparams _ hg hline hg' hbody hbrace ih ih' =>
      exact Category.reads_function hparams hbody hg hline hg' hbrace ih ih'
  | tagged htags htext ih => exact Category.reads_tagged htags htext ih
  | lone hw hattributes hg ih => exact Category.reads_lone hw hattributes ih hg
  | pair hw hattributes hg _ hg' ih ih' => exact Category.reads_pair hw hattributes ih hg ih' hg'
  | fragment _ ih => exact Category.reads_fragment ih
  | noAttributes => exact Category.reads_noAttributes
  | flagAttribute hg hw hrest ih => exact Category.reads_flagAttribute hg hw hrest ih
  | textAttribute hg hw hv _ ih => exact Category.reads_textAttribute hg hw hv ih
  | valueAttribute hg hw hg₁ htext hg₂ _ ih ih' => exact Category.reads_valueAttribute hg hw hg₁ htext ih hg₂ ih'
  | spreadAttribute hg hg₀ hg₁ _ hg₂ _ ih ih' => exact Category.reads_spreadAttribute hg hg₀ hg₁ ih hg₂ ih'
  | noChildren => exact Category.reads_noChildren
  | textChild ht hrest hends ih => exact Category.reads_textChild ht hrest hends ih
  | valueChild hg htext hg' _ ih ih' => exact Category.reads_valueChild hg htext ih hg' ih'
  | commentChild hg _ ih => exact Category.reads_commentChild hg ih
  | tagChild htext _ ih ih' => exact Category.reads_tagChild htext ih ih'
  | functionOf hw hname _ hbinding hg hline hg' hbody hbrace ih =>
      exact Category.reads_functionOf hw hname hbinding hbody hg hline hg' hbrace ih
  | element htext ih => exact Category.reads_element htext ih
  | spread hg _ ih => exact Category.reads_spread hg ih
  | property hkey hg hg' _ ih => exact Category.reads_property hkey hg hg' ih
  | shorthand hw hname => exact Category.reads_shorthand hw hname
  | memberSpread hg _ ih => exact Category.reads_memberSpread hg ih
  | parameter hw hbinding => exact Category.reads_parameter hw hbinding
  | nil hg => exact Category.reads_nil hg _
  | last hg htext hg' ih => exact Category.reads_last hg hg' htext ih
  | cons hg htext hg' _ ih ih' => exact Category.reads_cons hg hg' htext ih ih'

/-- A value without tags is read in every dialect, up to a separator or a closing bracket. -/
theorem Core.readsValue (h : Core false .value text [shape]) : ReadsValue text shape := by
  intro scope depth n g rest hgenerator hg hrest hbound hdepth
  simp only [List.length_append] at hbound
  have hscope : scope.Fits false := ⟨hgenerator, fun htags => absurd htags Bool.false_ne_true⟩
  obtain ⟨tree, stop, hread, hshape, _⟩ := @Core.reads _ _ _ _ h scope depth n g rest hscope hg hrest (by omega) hdepth
    shape List.mem_cons_self
  exact ⟨tree, stop, hread, hshape⟩

end Script
end StoryDocs
