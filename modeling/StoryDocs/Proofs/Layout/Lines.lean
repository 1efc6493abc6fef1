import StoryDocs.Layout.Formatter
import StoryDocs.Proofs.Script.Tokens
import StoryDocs.Proofs.Text.Dedent
import StoryDocs.Proofs.Text.Slice

/-!
# Layout of one line

A module is laid out line by line, and the lines above one that is neither blank nor a closing bracket do not
depend on it.  So such a line comes behind the layout of all that stands above it, with its strings requoted,
perhaps without its last comma, and indented anew.
-/

namespace StoryDocs
namespace Layout

open Text Script

variable {style : Style} {literals : Literals}

/-! ## Strings in the order of the text -/

/-- Strings in the order of the text. -/
def Sorted (strings : List Span) : Prop :=
  strings.Pairwise fun a b => a.start ≤ b.start

theorem Sorted.ofModule (text : List Char) (items : List Tree) :
    Sorted (Literals.ofModule text items).strings := by
  have hsorted := @List.pairwise_mergeSort _ (fun a b : Span => decide (a.start ≤ b.start))
    (by simp only [decide_eq_true_eq]; omega) (by simp only [Bool.or_eq_true, decide_eq_true_eq]; omega)
    ((Tree.stringsOf items).filter fun s => !Literals.isBroken text s)
  exact hsorted.imp of_decide_eq_true

/-- Where strings in order start before a place, they come first. -/
theorem Sorted.takeWhile_eq {strings : List Span} (h : Sorted strings) (stop : Nat) :
    strings.takeWhile (fun s => s.start < stop) = strings.filter (fun s => s.start < stop) ∧
      strings.drop (strings.takeWhile fun s => s.start < stop).length =
        strings.filter (fun s => stop ≤ s.start) := by
  induction strings with
  | nil => exact ⟨rfl, rfl⟩
  | cons a strings ih =>
      obtain ⟨hfirst, hrest⟩ := List.pairwise_cons.mp h
      by_cases ha : a.start < stop
      · obtain ⟨htake, hdrop⟩ := ih hrest
        have hnot : ¬stop ≤ a.start := by omega
        simp only [List.takeWhile_cons, List.filter_cons, ha, hnot, decide_true, decide_false, if_true,
          Bool.false_eq_true, if_false, List.length_cons, List.drop_succ_cons, htake]
        exact ⟨trivial, by rw [← htake]; exact hdrop⟩
      · have hlater : ∀ b ∈ a :: strings, stop ≤ b.start := by
          refine List.forall_mem_cons.mpr ⟨by omega, fun b hb => ?_⟩
          have hab := hfirst b hb
          omega
        have hnone : (a :: strings).filter (fun s => s.start < stop) = [] := by
          refine List.filter_eq_nil_iff.mpr fun b hb => ?_
          have hb' := hlater b hb
          simp only [decide_eq_true_eq]
          omega
        have hall : (a :: strings).filter (fun s => stop ≤ s.start) = a :: strings :=
          List.filter_eq_self.mpr fun b hb => decide_eq_true (hlater b hb)
        rw [hnone, hall]
        simp [ha]

/-! ## Requoting -/

/-- How many characters lines take with their line feeds. -/
def extent : List (List Char) → Nat
  | [] => 0
  | l :: ls => l.length + 1 + extent ls

theorem extent_cons (l : List Char) (ls : List (List Char)) :
    extent (l :: ls) = l.length + 1 + extent ls := rfl

theorem extent_pieces (s : List Char) : extent (pieces s) = s.length + 1 := by
  induction s with
  | nil => rfl
  | cons c s ih =>
      rw [pieces]
      split
      · rw [extent_cons, ih, List.length_nil, List.length_cons]
        omega
      · split
        · rename_i hnil
          exact absurd hnil (pieces_ne_nil s)
        · rename_i l ls hpieces
          rw [hpieces, extent_cons] at ih
          rw [extent_cons, List.length_cons, List.length_cons]
          omega

/-- The strings that are left for lines below others are those that start there; a string could also start
on the line feed between. -/
theorem requoteLines_append {strings : List Span} (hsorted : Sorted strings) {n : Nat}
    (hfrom : ∀ s ∈ strings, n ≤ s.start + 1) (ls ms : List (List Char)) :
    requoteLines style literals (ls ++ ms) n strings = requoteLines style literals ls n strings ++
      requoteLines style literals ms (n + extent ls)
        (strings.filter fun s => n + extent ls ≤ s.start + 1) := by
  induction ls generalizing n strings with
  | nil =>
      have hall : (strings.filter fun s => n + extent [] ≤ s.start + 1) = strings :=
        List.filter_eq_self.mpr fun s hs => decide_eq_true (hfrom s hs)
      rw [hall]
      rfl
  | cons l ls ih =>
      obtain ⟨_, hdrop⟩ := hsorted.takeWhile_eq (n + l.length)
      have hleft : ∀ s ∈ strings.filter (fun s => n + l.length ≤ s.start), n + l.length + 1 ≤ s.start + 1 := by
        intro s hs
        have hstart := (List.mem_filter.mp hs).2
        simp only [decide_eq_true_eq] at hstart
        omega
      have hsum : n + l.length + 1 + extent ls = n + extent (l :: ls) := by
        rw [extent_cons]
        omega
      have hboth : (strings.filter fun s => n + l.length ≤ s.start).filter
            (fun s => n + extent (l :: ls) ≤ s.start + 1) =
          strings.filter fun s => n + extent (l :: ls) ≤ s.start + 1 := by
        rw [List.filter_filter]
        refine List.filter_congr fun s _ => ?_
        rw [extent_cons, ← Bool.decide_and]
        congr 1
        refine propext ⟨And.left, fun hstart => ⟨hstart, ?_⟩⟩
        omega
      have hrest := ih (hsorted.filter _) hleft
      rw [hsum, hboth] at hrest
      rw [List.cons_append, requoteLines, requoteLines, hdrop, hrest, List.cons_append]

/-! ## Commas -/

theorem closesNext_append {ms : List Line} (h : closesNext ms = false) (ls : List Line) :
    closesNext (ls ++ ms) = closesNext ls := by
  unfold closesNext at h ⊢
  rw [List.find?_append]
  cases hfind : ls.find? fun l => !allBlank l.text with
  | none => simpa using h
  | some l => rfl

theorem dropCommas_append {ms : List Line} (h : closesNext ms = false) (ls : List Line) :
    dropCommas (ls ++ ms) = dropCommas ls ++ dropCommas ms := by
  induction ls with
  | nil => rfl
  | cons l ls ih => rw [List.cons_append, dropCommas, dropCommas, ih, closesNext_append h, List.cons_append]

/-- The commas of a module are dropped if the style wants none. -/
def withoutCommas (style : Style) (ls : List Line) : List Line :=
  if style.trailingComma == .never then dropCommas ls else ls

theorem withoutCommas_append {ms : List Line} (h : closesNext ms = false) (ls : List Line) :
    withoutCommas style (ls ++ ms) = withoutCommas style ls ++ withoutCommas style ms := by
  unfold withoutCommas
  split
  · exact dropCommas_append h ls
  · rfl

/-- A line keeps its text, or loses its last comma. -/
theorem withoutCommas_cons (l : Line) (ls : List Line) :
    ∃ text more, withoutCommas style (l :: ls) = ⟨text, l.verbatim⟩ :: more ∧
      (text = l.text ∨ dropComma l.text = some text) := by
  unfold withoutCommas
  split
  · rw [dropCommas]
    cases hcomma : dropComma l.text with
    | none => exact ⟨l.text, _, rfl, .inl rfl⟩
    | some cut =>
        dsimp only
        split
        · exact ⟨cut, _, rfl, .inr rfl⟩
        · exact ⟨l.text, _, rfl, .inl rfl⟩
  · exact ⟨l.text, _, rfl, .inl rfl⟩

/-! ## Lines one after the other -/

/-- Lines that were written stay. -/
theorem exists_foldl_layLine (style : Style) (ls : List Line) (written : List (List Char)) :
    ∃ more, ls.foldl (layLine style) written = more ++ written := by
  induction ls generalizing written with
  | nil => exact ⟨[], rfl⟩
  | cons l ls ih =>
      have hstep : ∃ more, layLine style written l = more ++ written := by
        unfold layLine
        split
        · exact ⟨[l.text], rfl⟩
        · split
          · split
            · exact ⟨[], rfl⟩
            · exact ⟨[], rfl⟩
            · exact ⟨[[]], rfl⟩
          · exact ⟨[reindent style l.text], rfl⟩
      obtain ⟨one, hone⟩ := hstep
      obtain ⟨more, hmore⟩ := ih (one ++ written)
      exact ⟨more ++ one, by rw [List.foldl_cons, hone, hmore, List.append_assoc]⟩

/-- Only empty lines are dropped. -/
theorem exists_dropEmpty_append (written : List (List Char)) :
    ∃ blanks, blanks.all List.isEmpty = true ∧ written = blanks ++ dropEmpty written := by
  fun_induction dropEmpty written with
  | case1 l written ih =>
      obtain ⟨blanks, hblanks, heq⟩ := ih
      exact ⟨[] :: blanks, hblanks, congrArg ([] :: ·) heq⟩
  | case2 written => exact ⟨[], rfl, rfl⟩

/-- Empty lines are dropped up to a line that is not empty. -/
theorem exists_dropEmpty_cons {l : List Char} (hl : l ≠ []) (more written : List (List Char)) :
    ∃ kept, dropEmpty (more ++ l :: written) = kept ++ l :: written := by
  fun_induction dropEmpty more with
  | case1 m more ih =>
      obtain ⟨kept, hkept⟩ := ih
      exact ⟨kept, hkept⟩
  | case2 more hmore =>
      match more with
      | [] =>
          obtain ⟨c, l, rfl⟩ := List.exists_cons_of_ne_nil hl
          exact ⟨[], rfl⟩
      | [[]] =>
          obtain ⟨c, l, rfl⟩ := List.exists_cons_of_ne_nil hl
          exact ⟨[], rfl⟩
      | [] :: m :: more => exact absurd rfl (hmore m more)
      | (c :: m) :: more => exact ⟨(c :: m) :: more, rfl⟩

/-- A blank line at the end is dropped, if there are lines before it. -/
theorem layLines_concat_empty {ls : List Line} (h : ls.foldl (layLine style) [] ≠ []) (verbatim : Bool) :
    layLines style (ls ++ [⟨[], verbatim⟩]) = layLines style ls := by
  unfold layLines
  rw [List.foldl_append]
  obtain ⟨l, written, hwritten⟩ := List.exists_cons_of_ne_nil h
  rw [hwritten, List.foldl_cons, List.foldl_nil]
  have hstep : dropEmpty (layLine style (l :: written) ⟨[], verbatim⟩) = dropEmpty (l :: written) := by
    unfold layLine
    split
    · rfl
    · match l, written with
      | [], [] => rfl
      | [], m :: written => rfl
      | c :: l, written => rfl
  rw [hstep]

/-- The text of a line that is not blank. -/
def lay (style : Style) (l : Line) : List Char :=
  if l.verbatim then l.text else reindent style l.text

theorem layLine_of_code {l : Line} (h : allBlank l.text = false) (written : List (List Char)) :
    layLine style written l = lay style l :: written := by
  unfold layLine lay
  rw [h]
  split
  · rfl
  · rfl

/-- Lines that start inside a literal are written as they are. -/
theorem foldl_layLine_verbatim {ls : List Line} (h : ∀ l ∈ ls, l.verbatim = true) (written : List (List Char)) :
    ls.foldl (layLine style) written = (ls.map Line.text).reverse ++ written := by
  induction ls generalizing written with
  | nil => rfl
  | cons l ls ih =>
      have hstep : layLine style written l = l.text :: written := by
        unfold layLine
        rw [if_pos (h l List.mem_cons_self)]
      rw [List.foldl_cons, hstep, ih fun m hm => h m (List.mem_cons_of_mem _ hm), List.map_cons,
        List.reverse_cons, List.append_assoc, List.singleton_append]

theorem flatMap_feed {ls : List (List Char)} (h : ls ≠ []) : ls.flatMap (· ++ ['\n']) = unlines ls ++ ['\n'] := by
  induction ls with
  | nil => exact absurd rfl h
  | cons l ls ih =>
      cases ls with
      | nil => simp [unlines]
      | cons m ls =>
          rw [List.flatMap_cons, ih (List.cons_ne_nil m ls), unlines_cons (List.cons_ne_nil m ls)]
          simp

/-- The text of lines of which the last comes first. -/
def joined (written : List (List Char)) : List Char :=
  written.reverse.flatMap (· ++ ['\n'])

theorem joined_cons (l : List Char) (written : List (List Char)) :
    joined (l :: written) = joined written ++ (l ++ ['\n']) := by
  simp [joined]

theorem joined_append (ls ms : List (List Char)) : joined (ls ++ ms) = joined ms ++ joined ls := by
  simp [joined]

/-- The layout of lines is what is written, but for empty lines at the end. -/
theorem exists_joined_foldl (style : Style) (ls : List Line) : ∃ blanks, blanks.all (· == '\n') = true ∧
    joined (ls.foldl (layLine style) []) = layLines style ls ++ blanks := by
  generalize hwritten : ls.foldl (layLine style) [] = written
  obtain ⟨empty, hempty, hsplit⟩ := exists_dropEmpty_append written
  refine ⟨joined empty, ?_, ?_⟩
  · refine List.all_eq_true.mpr fun c hc => ?_
    obtain ⟨w, hw, hc⟩ := List.mem_flatMap.mp hc
    have hnil : w.isEmpty = true := List.all_eq_true.mp hempty w (List.mem_reverse.mp hw)
    rw [List.isEmpty_iff.mp hnil, List.nil_append, List.mem_singleton] at hc
    rw [hc]
    rfl
  · have hjoin := joined_append empty (dropEmpty written)
    rw [← hsplit] at hjoin
    unfold layLines
    rw [hwritten]
    exact hjoin

/-- A line that is not blank comes behind the lines that were written, and the lines that start in a literal of it
come behind it. -/
theorem layLines_block {l : Line} {vs : List Line} (hcode : allBlank l.text = false)
    (hvs : ∀ v ∈ vs, v.verbatim = true) (hlast : (lay style l :: vs.map Line.text).getLast? ≠ some [])
    (ls ms : List Line) : ∃ back, layLines style (ls ++ l :: (vs ++ ms)) =
      joined (ls.foldl (layLine style) []) ++ unlines (lay style l :: vs.map Line.text) ++ '\n' :: back := by
  unfold layLines
  rw [List.foldl_append, List.foldl_cons, List.foldl_append, layLine_of_code hcode, foldl_layLine_verbatim hvs]
  generalize ls.foldl (layLine style) [] = written
  obtain ⟨last, hlast', hne⟩ : ∃ last, (lay style l :: vs.map Line.text).getLast? = some last ∧ last ≠ [] := by
    cases hlast' : (lay style l :: vs.map Line.text).getLast? with
    | none => simp at hlast'
    | some last => exact ⟨last, rfl, fun hnil => hlast (by rw [hlast', hnil])⟩
  obtain ⟨block, hblock⟩ := List.getLast?_eq_some_iff.mp hlast'
  have hwritten : (vs.map Line.text).reverse ++ lay style l :: written = last :: (block.reverse ++ written) := by
    have hreversed := congrArg List.reverse hblock
    rw [List.reverse_cons, List.reverse_append, List.reverse_singleton] at hreversed
    rw [← List.singleton_append, ← List.append_assoc, hreversed, List.append_assoc]
    rfl
  obtain ⟨more, hmore⟩ := exists_foldl_layLine style ms (last :: (block.reverse ++ written))
  rw [hwritten, hmore]
  obtain ⟨kept, hkept⟩ := exists_dropEmpty_cons hne more (block.reverse ++ written)
  have hend : (block ++ [last]).flatMap (· ++ ['\n']) = unlines (block ++ [last]) ++ ['\n'] :=
    flatMap_feed (by simp)
  refine ⟨kept.reverse.flatMap (· ++ ['\n']), ?_⟩
  rw [hblock, hkept, List.reverse_append, List.reverse_cons, List.reverse_append, List.reverse_reverse,
    List.append_assoc written.reverse, List.flatMap_append, List.flatMap_append, hend]
  simp only [joined, List.append_assoc, List.singleton_append]

/-! ## Code -/

/-- Whether a text holds a character that no step of the layout drops. -/
def HoldsCode (s : List Char) : Prop :=
  ∃ c ∈ s, isBlank c = false ∧ c ≠ ','

theorem isQuote_chosenQuote (content : List Char) (preferSingle : Bool) :
    IsQuote (chosenQuote content preferSingle) := by
  unfold chosenQuote quotePair IsQuote
  grind -linarith

/-- A string that is put in the place of another one has quotes. -/
theorem HoldsCode.requote (content : List Char) (old : Char) (preferSingle : Bool) :
    HoldsCode (requote content old preferSingle) := by
  refine ⟨chosenQuote content preferSingle, List.mem_cons_self, ?_⟩
  rcases isQuote_chosenQuote content preferSingle with hquote | hquote
  · rw [hquote]
    decide
  · rw [hquote]
    decide

theorem HoldsCode.requoteLine {line : List Char} (h : HoldsCode line) (offset : Nat) (strings : List Span) :
    HoldsCode (requoteLine style line offset strings) := by
  cases strings with
  | nil => exact h
  | cons s strings =>
      obtain ⟨c, hc, hcode⟩ := HoldsCode.requote
        ((((line.drop (s.start - offset)).take (s.stop - offset - (s.start - offset))).drop 1).take
          (((line.drop (s.start - offset)).take (s.stop - offset - (s.start - offset))).length - 2))
        (((line.drop (s.start - offset)).take (s.stop - offset - (s.start - offset))).headD '\x27')
        style.singleQuote
      exact ⟨c, List.mem_append_left _ (List.mem_append_right _ hc), hcode⟩

/-- Code stands on a line. -/
theorem exists_holdsCode_pieces {s : List Char} (h : HoldsCode s) : ∃ line ∈ pieces s, HoldsCode line := by
  obtain ⟨c, hc, hblank, hcomma⟩ := h
  have hfeed : c ≠ '\n' := by
    rintro rfl
    cases hblank
  obtain ⟨line, hline, hc⟩ := exists_mem_pieces hc hfeed
  exact ⟨line, hline, c, hc, hblank, hcomma⟩

theorem exists_holdsCode_requoteLines {ls : List (List Char)} {line : List Char} (hline : line ∈ ls)
    (hcode : HoldsCode line) (n : Nat) (strings : List Span) :
    ∃ l ∈ requoteLines style literals ls n strings, HoldsCode l.text := by
  induction ls generalizing n strings with
  | nil => cases hline
  | cons l ls ih =>
      rw [requoteLines]
      rcases List.mem_cons.mp hline with rfl | hline
      · exact ⟨_, List.mem_cons_self, hcode.requoteLine _ _⟩
      · obtain ⟨m, hm, hcode'⟩ := ih hline (n + l.length + 1)
          (strings.drop (strings.takeWhile fun s => s.start < n + l.length).length)
        exact ⟨m, List.mem_cons_of_mem _ hm, hcode'⟩

theorem HoldsCode.dropComma {text cut : List Char} (h : HoldsCode text) (hcut : dropComma text = some cut) :
    HoldsCode cut := by
  obtain ⟨c, hc, hblank, hcomma⟩ := h
  obtain ⟨blanks, htext, hblanks⟩ := exists_dropTail_append isBlank text
  have htrim := dropTrail?_eq_some_iff.mp hcut
  rw [trimEnd] at htrim
  rw [htext, htrim, List.mem_append, List.mem_append, List.mem_singleton] at hc
  rcases hc with (hc | hc) | hc
  · exact ⟨c, hc, hblank, hcomma⟩
  · exact absurd hc hcomma
  · rw [List.all_eq_true] at hblanks
    rw [hblanks c hc] at hblank
    cases hblank

theorem exists_holdsCode_withoutCommas {ls : List Line} {l : Line} (hl : l ∈ ls) (hcode : HoldsCode l.text) :
    ∃ m ∈ withoutCommas style ls, HoldsCode m.text := by
  unfold withoutCommas
  split
  · induction ls with
    | nil => cases hl
    | cons k ls ih =>
        rw [dropCommas]
        rcases List.mem_cons.mp hl with rfl | hl
        · refine ⟨_, List.mem_cons_self, ?_⟩
          split
          · rename_i cut hcut
            split
            · exact hcode.dropComma hcut
            · exact hcode
          · exact hcode
        · obtain ⟨m, hm, hcode'⟩ := ih hl
          exact ⟨m, List.mem_cons_of_mem _ hm, hcode'⟩
  · exact ⟨l, hl, hcode⟩

/-- Lines with code are not laid out as nothing. -/
theorem foldl_layLine_ne_nil {ls : List Line} {l : Line} (hl : l ∈ ls) (hcode : HoldsCode l.text)
    (written : List (List Char)) : ls.foldl (layLine style) written ≠ [] := by
  obtain ⟨front, back, rfl⟩ := List.append_of_mem hl
  rw [List.foldl_append, List.foldl_cons]
  obtain ⟨c, hc, hblank, _⟩ := hcode
  have hline : allBlank l.text = false := List.all_eq_false.mpr ⟨c, hc, by simp [hblank]⟩
  obtain ⟨more, hmore⟩ := exists_foldl_layLine style back
    (layLine style (front.foldl (layLine style) written) l)
  rw [hmore]
  intro hnil
  have hlaid := (List.append_eq_nil_iff.mp hnil).2
  unfold layLine at hlaid
  rw [hline] at hlaid
  split at hlaid
  · cases hlaid
  · cases hlaid

/-! ## A line of a module -/

/-- The strings that start on a line, or on the line feed before it. -/
def stringsOn (literals : Literals) (n : Nat) (line : List Char) : List Span :=
  literals.strings.filter fun s => n ≤ s.start + 1 && s.start < n + line.length

/-- A line below others is requoted with the strings that start on it. -/
theorem requoteLines_below (hsorted : Sorted literals.strings) (above line : List Char)
    (ms : List (List Char)) : ∃ left,
      requoteLines style literals (pieces above ++ line :: ms) 0 literals.strings =
        requoteLines style literals (pieces above) 0 literals.strings ++
          ⟨requoteLine style line (above.length + 1) (stringsOn literals (above.length + 1) line),
            literals.isVerbatimLine (above.length + 1)⟩ ::
            requoteLines style literals ms (above.length + 1 + line.length + 1) left := by
  have hfiltered : Sorted (literals.strings.filter fun s => above.length + 1 ≤ s.start + 1) :=
    List.Pairwise.filter _ hsorted
  have hhere : (literals.strings.filter fun s => above.length + 1 ≤ s.start + 1).takeWhile
      (fun s => s.start < above.length + 1 + line.length) =
        stringsOn literals (above.length + 1) line := by
    rw [(hfiltered.takeWhile_eq _).1, List.filter_filter, stringsOn]
    exact List.filter_congr fun s _ => Bool.and_comm _ _
  rw [requoteLines_append hsorted fun s _ => Nat.zero_le _, extent_pieces, Nat.zero_add, requoteLines, hhere]
  exact ⟨_, rfl⟩

/-- A line that is neither blank nor closes a bracket comes behind the layout of what stands above it, with
its strings requoted, perhaps without its last comma. -/
theorem layText_line {above line requoted : List Char} (habove : HoldsCode above)
    (hsorted : Sorted literals.strings) (hline : '\n' ∉ line)
    (hstrings : ∀ s ∈ stringsOn literals (above.length + 1) line, above.length + 1 ≤ s.start)
    (hrequoted : requoteLine style line (above.length + 1)
      (stringsOn literals (above.length + 1) line) = requoted)
    (hopen : startsClosing requoted = false)
    (hcode : ∀ text, text = requoted ∨ dropComma requoted = some text →
      allBlank text = false ∧ reindent style text ≠ []) (below : List Char) :
    ∃ blanks text back verbatim, blanks.all (· == '\n') = true ∧
      (text = requoted ∨ dropComma requoted = some text) ∧
      layText style literals (above ++ '\n' :: (line ++ '\n' :: below)) =
        layText style literals (above ++ ['\n']) ++ blanks ++ lay style ⟨text, verbatim⟩ ++ '\n' :: back := by
  -- No string starts on the line feed above the line, where the text above ends.
  have hnone : stringsOn literals (above.length + 1) [] = [] := by
    refine List.filter_eq_nil_iff.mpr fun s hmem hs => ?_
    rw [Bool.and_eq_true, decide_eq_true_eq, decide_eq_true_eq, List.length_nil] at hs
    have hon : s ∈ stringsOn literals (above.length + 1) line := by
      refine List.mem_filter.mpr ⟨hmem, ?_⟩
      rw [Bool.and_eq_true, decide_eq_true_eq, decide_eq_true_eq]
      omega
    have hstart := hstrings s hon
    omega
  obtain ⟨_, hwhole⟩ := @requoteLines_below style literals hsorted above line (pieces below)
  obtain ⟨_, hshort⟩ := @requoteLines_below style literals hsorted above [] []
  rw [hrequoted] at hwhole
  rw [hnone] at hshort
  obtain ⟨code, hmem, hcode'⟩ := exists_holdsCode_pieces habove
  obtain ⟨first, hfirst, hheld⟩ := @exists_holdsCode_requoteLines style literals _ _ hmem hcode' 0 literals.strings
  generalize requoteLines style literals (pieces above) 0 literals.strings = front at hwhole hshort hfirst
  obtain ⟨kept, hkept, hheld⟩ := @exists_holdsCode_withoutCommas style _ _ hfirst hheld
  have hwritten := @foldl_layLine_ne_nil style _ _ hkept hheld []
  have hnext : ∀ verbatim ms, closesNext (⟨requoted, verbatim⟩ :: ms) = false := by
    intro verbatim ms
    have hblank := (hcode requoted (.inl rfl)).1
    simp [closesNext, hblank, hopen]
  obtain ⟨text, more, hcons, htext⟩ := @withoutCommas_cons style
    ⟨requoted, literals.isVerbatimLine (above.length + 1)⟩
    (requoteLines style literals (pieces below) (above.length + 1 + line.length + 1) _)
  have hlaid : ∀ verbatim, lay style ⟨text, verbatim⟩ ≠ [] := by
    intro verbatim
    obtain ⟨hblank, hindented⟩ := hcode text htext
    cases verbatim with
    | true =>
        rintro rfl
        cases hblank
    | false => exact hindented
  obtain ⟨blanks, hblanks, hwhole'⟩ := exists_joined_foldl style (withoutCommas style front)
  obtain ⟨back, hlay⟩ := @layLines_block style
    ⟨text, literals.isVerbatimLine (above.length + 1)⟩ [] (hcode text htext).1 (by simp)
    (by simpa using hlaid (literals.isVerbatimLine (above.length + 1))) (withoutCommas style front) more
  refine ⟨blanks, text, back, literals.isVerbatimLine (above.length + 1), hblanks, htext, ?_⟩
  have hempty : ∀ verbatim, withoutCommas style [⟨[], verbatim⟩] = [⟨[], verbatim⟩] := by
    intro verbatim
    unfold withoutCommas
    split
    · rfl
    · rfl
  have hleft : layText style literals (above ++ '\n' :: (line ++ '\n' :: below)) =
      layLines style (withoutCommas style front ++
        ⟨text, literals.isVerbatimLine (above.length + 1)⟩ :: more) := by
    show layLines style (withoutCommas style _) = _
    rw [pieces_append_feed, pieces_append_feed, pieces_of_not_mem hline, List.singleton_append, hwhole,
      withoutCommas_append (hnext _ _), hcons]
  have hright : layText style literals (above ++ ['\n']) = layLines style (withoutCommas style front) := by
    show layLines style (withoutCommas style _) = _
    rw [pieces_append_feed]
    simp only [pieces]
    rw [hshort]
    show layLines style (withoutCommas style (front ++ [⟨[], _⟩])) = _
    rw [withoutCommas_append rfl, hempty, layLines_concat_empty hwritten]
  rw [List.nil_append, List.map_nil, unlines, hwhole'] at hlay
  rw [hleft, hright, hlay]

end Layout
end StoryDocs
