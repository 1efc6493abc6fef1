import StoryDocs.Proofs.Layout.Whitespace
import StoryDocs.Proofs.Script.Bytes.Positions

/-!
# Layout by byte indexes

An editor of lines that is given its ranges in bytes subtracts offsets, slices lines and writes into them while
their lengths change.  Here each of these steps fails where its indexes go wrong.  On strings that are quoted
literals, each on one line, none of them does, and what the editor writes is the layout of the text.
-/

namespace StoryDocs
namespace Layout
namespace Bytes

open Text Text.Buffer Script Script.Bytes Markup.Bytes

/-! ## The editor -/

/-- Requote one string of a line that starts at `offset`, in a copy of the line.  A range that the line does not
have is passed over. -/
def requoteAt (style : Style) (line : List Char) (offset : Nat) (s : Span) (copy : List Char) :
    Checked (List Char) := do
  let start ← minus s.start offset
  let stop ← minus s.stop offset
  match slice line start stop with
  | .error _ => return copy
  | .ok [] => return copy
  | .ok (quote :: raw) =>
    if byteSize (quote :: raw) < 2 then return copy
    else do
      let last ← minus (byteSize (quote :: raw)) 1
      let content ← slice (quote :: raw) 1 last
      replaceRange copy start stop (requote content quote style.singleQuote)

/-- Requote the strings of a line, the last one first. -/
def requoteLine (style : Style) (line : List Char) (offset : Nat) (strings : List Span) :
    Checked (List Char) :=
  strings.foldrM (requoteAt style line offset) line

/-- Requote lines of which the first one starts at an offset. -/
def requoteLines (style : Style) (literals : Literals) :
    List (List Char) → Nat → List Span → Checked (List Line)
  | [], _, _ => .ok []
  | line :: rest, offset, strings => do
    let stop := offset + byteSize line
    let here := strings.takeWhile fun s => s.start < stop
    let text ← requoteLine style line offset here
    let below ← requoteLines style literals rest (stop + 1) (strings.drop here.length)
    return ⟨text, literals.isVerbatimLine offset⟩ :: below

/-- Drop the last character of a line and the blanks behind it. -/
def cutLast (text : List Char) : Checked (List Char) := do
  let kept ← minus (byteSize (trimEnd text)) 1
  slice text 0 kept

/-- Drop the commas in front of closing lines. -/
def dropCommas : List Line → Checked (List Line)
  | [] => .ok []
  | l :: rest => do
    let first ←
      if !l.verbatim && (trimEnd l.text).getLast? == some ',' && closesNext rest then do
        let cut ← cutLast l.text
        pure { l with text := cut }
      else pure l
    let below ← dropCommas rest
    return first :: below

/-- Drop the commas in front of closing lines, if the style wants none. -/
def withoutCommas (style : Style) (ls : List Line) : Checked (List Line) :=
  if style.trailingComma == .never then dropCommas ls else .ok ls

/-- Scale the indentation of a line. -/
def reindent (style : Style) (line : List Char) : Checked (List Char) := do
  let content := line.dropWhile (· == ' ')
  let spaces ← minus (byteSize line) (byteSize content)
  let level := spaces / sourceIndent
  let rest := spaces % sourceIndent
  let indent :=
    if style.useTabs then List.replicate level '\t' ++ List.replicate rest ' '
    else List.replicate (level * style.tabWidth + rest) ' '
  return indent ++ trimEnd content

/-- Whether a text ends with a blank line. -/
def endsBlank (text : List Char) : Bool :=
  ['\n', '\n'].isPrefixOf text.reverse

/-- Write a line behind a text. -/
def layLine (style : Style) (written : List Char) (l : Line) : Checked (List Char) :=
  if l.verbatim then .ok (written ++ (l.text ++ ['\n']))
  else if allBlank l.text then
    .ok (if !written.isEmpty && !endsBlank written then written ++ ['\n'] else written)
  else do
    let line ← reindent style l.text
    return written ++ (line ++ ['\n'])

/-- Drop line feeds from a text that is read backwards, as long as two come first. -/
def dropFeeds : List Char → List Char
  | '\n' :: '\n' :: s => dropFeeds ('\n' :: s)
  | s => s

/-- Lay out a text with the ranges of its literals in bytes. -/
def layText (style : Style) (literals : Literals) (text : List Char) : Checked (List Char) := do
  let ls ← requoteLines style literals (pieces text) 0 literals.strings
  let ls ← withoutCommas style ls
  let written ← ls.foldlM (layLine style) []
  return (dropFeeds written.reverse).reverse

/-! ## Indexes -/

/-- The ranges of literals in bytes. -/
def inBytes (text : List Char) (literals : Literals) : Literals :=
  ⟨literals.strings.map (byteSpan text), literals.verbatim.map (byteSpan text)⟩

variable {style : Style} {literals : Literals} {text above line back u v w s : List Char}
  {strings : List Span} {n m : Nat}

theorem isVerbatimLine_inBytes (above back : List Char) (literals : Literals) :
    (inBytes (above ++ back) literals).isVerbatimLine (byteSize above) =
      literals.isVerbatimLine above.length := by
  have hindex := byteIndex_append above back
  simp only [Literals.isVerbatimLine, inBytes, byteSpan, List.any_map, Function.comp_def, ← hindex,
    byteIndex_lt_iff]

/-! ## Requoting -/

theorem byteSize_quote {quote : Char} (hquote : IsQuote quote) : byteSize [quote] = 1 := by
  rcases hquote with rfl | rfl
  · rfl
  · rfl

/-- A literal of a line is replaced in every copy that agrees with the line up to its end. -/
theorem requoteAt_literal {front content rest tail : List Char} {quote : Char} (hquote : IsQuote quote)
    (above : List Char) :
    requoteAt style (front ++ (quote :: content ++ [quote] ++ rest)) (byteSize above)
        ⟨byteSize (above ++ front), byteSize (above ++ (front ++ (quote :: content ++ [quote])))⟩
        (front ++ (quote :: content ++ [quote]) ++ tail) =
      .ok (front ++ requote content quote style.singleQuote ++ tail) := by
  have hsize := byteSize_quote hquote
  have hraw : byteSize (quote :: (content ++ [quote])) = 1 + byteSize content + 1 := by
    show byteSize ([quote] ++ (content ++ [quote])) = _
    rw [byteSize_append, byteSize_append, hsize, Nat.add_assoc]
  have hslice := slice_append front (quote :: (content ++ [quote])) rest
  have hcontent := slice_append [quote] content [quote]
  rw [hsize] at hcontent
  rw [List.append_assoc] at hslice
  simp only [List.cons_append] at hslice ⊢
  rw [requoteAt, minus_append, ok_bind, minus_append, ok_bind, byteSize_append front, hslice]
  dsimp only
  rw [if_neg (by rw [hraw]; omega), hraw, minus, if_pos (by omega), ok_bind, Nat.add_sub_cancel]
  have hinner : slice (quote :: (content ++ [quote])) 1 (1 + byteSize content) = .ok content := hcontent
  have hreplaced := replaceRange_append front (quote :: (content ++ [quote])) tail
    (requote content quote style.singleQuote)
  rw [hraw] at hreplaced
  rw [hinner, ok_bind]
  simpa only [List.append_assoc, List.cons_append] using hreplaced

/-- The strings of a line are replaced in its copy, the last one first. -/
theorem requoteLine_eq (hback : back = [] ∨ back.head? = some '\n')
    (hquoted : ∀ s ∈ strings, Quoted (above ++ (line ++ back)) s) (happart : Apart strings)
    (hon : ∀ s ∈ strings, above.length ≤ s.start ∧ s.start < above.length + line.length) :
    requoteLine style line (byteSize above) (strings.map (byteSpan (above ++ (line ++ back)))) =
      .ok (Layout.requoteLine style line above.length strings) := by
  rw [Layout.requoteLine_eq hquoted hback hon]
  -- The copy that the first string is replaced in has the later ones replaced already, so its offsets still hold.
  induction strings with
  | nil => rfl
  | cons s strings ih =>
      obtain ⟨hfirst, hrest⟩ := List.pairwise_cons.mp happart
      have hquoted' : ∀ t ∈ strings, Quoted (above ++ (line ++ back)) t := fun t ht =>
        hquoted t (List.mem_cons_of_mem _ ht)
      have hcopy := ih hquoted' hrest fun t ht => hon t (List.mem_cons_of_mem _ ht)
      obtain ⟨front, quote, content, rest, rfl, hquote, hcontent, rfl⟩ :=
        (hquoted s List.mem_cons_self).on_line hback (hon s List.mem_cons_self).1 (hon s List.mem_cons_self).2
      have hlength : content.length + 2 = (quote :: content ++ [quote]).length := by simp
      have htext : above ++ (front ++ (quote :: content ++ [quote] ++ rest) ++ back) =
          above ++ front ++ (quote :: content ++ [quote] ++ (rest ++ back)) := by simp
      have hlater : ∀ r ∈ strings.map (replacement style
          (above ++ (front ++ (quote :: content ++ [quote] ++ rest) ++ back))),
          above.length + (front ++ (quote :: content ++ [quote])).length ≤ r.start ∧ r.start ≤ r.stop := by
        intro r hr
        obtain ⟨t, ht, rfl⟩ := List.mem_map.mp hr
        have hbehind := hfirst t ht
        rw [replacement_start, replacement_stop, List.length_append, ← hlength]
        exact ⟨by dsimp only at hbehind; omega, Nat.le_of_lt (hquoted' t ht).lt.1⟩
      have hspan : byteSpan (above ++ (front ++ (quote :: content ++ [quote] ++ rest) ++ back))
          ⟨above.length + front.length, above.length + front.length + (content.length + 2)⟩ =
          ⟨byteSize (above ++ front), byteSize (above ++ (front ++ (quote :: content ++ [quote])))⟩ := by
        have hstart := byteIndex_append (above ++ front) (quote :: content ++ [quote] ++ (rest ++ back))
        have hstop := byteIndex_append (above ++ (front ++ (quote :: content ++ [quote]))) (rest ++ back)
        rw [List.length_append] at hstart
        rw [List.length_append, List.length_append, ← hlength, ← Nat.add_assoc] at hstop
        rw [byteSpan, htext, hstart, ← hstop]
        simp
      have hreplaced : replacement style (above ++ (front ++ (quote :: content ++ [quote] ++ rest) ++ back))
          ⟨above.length + front.length, above.length + front.length + (content.length + 2)⟩ =
          ⟨above.length + front.length, above.length + front.length + (quote :: content ++ [quote]).length,
            requote content quote style.singleQuote⟩ := by
        have hwhole := @requoteIn_literal style (above ++ front) content (rest ++ back) quote 0
        rw [Nat.zero_add, List.length_append] at hwhole
        rw [htext, replacement, hwhole, hlength]
      clear ih hquoted hquoted' hfirst htext
      generalize above ++ (front ++ (quote :: content ++ [quote] ++ rest) ++ back) = whole
        at hlater hspan hreplaced hcopy ⊢
      have hkept := @spliceFrom_later (front ++ (quote :: content ++ [quote])) rest _ above.length hlater
      rw [List.append_assoc front] at hkept
      have hcons := spliceFrom_cons above.length front (quote :: content ++ [quote])
        (requote content quote style.singleQuote) rest (strings.map (replacement style whole))
      rw [List.append_assoc front (quote :: content ++ [quote])] at hcons
      have hsum : above.length + (front ++ (quote :: content ++ [quote])).length =
          above.length + front.length + (quote :: content ++ [quote]).length := by
        rw [List.length_append, Nat.add_assoc]
      rw [requoteLine, hkept, hsum] at hcopy
      rw [List.map_cons, List.map_cons, requoteLine, List.foldrM_cons, hcopy, hspan, hreplaced, hcons]
      exact requoteAt_literal hquote above

/-- Every line gets its own strings. -/
theorem requoteLines_eq {ls : List (List Char)} (hls : ls ≠ [])
    (hquoted : ∀ s ∈ strings, Quoted (above ++ unlines ls) s) (happart : Apart strings)
    (hfrom : ∀ s ∈ strings, above.length ≤ s.start) :
    requoteLines style (inBytes (above ++ unlines ls) literals) ls (byteSize above)
        (strings.map (byteSpan (above ++ unlines ls))) =
      .ok (Layout.requoteLines style literals ls above.length strings) := by
  induction ls generalizing above strings with
  | nil => exact absurd rfl hls
  | cons line ls ih =>
      obtain ⟨here, later, back, hout⟩ := exists_handedOut hquoted happart hfrom
      rw [hout.join] at hquoted ⊢
      obtain ⟨hfirst, hlast⟩ : (∀ s ∈ here, Quoted (above ++ (line ++ back)) s) ∧
          ∀ s ∈ later, Quoted (above ++ (line ++ back)) s := by
        rw [hout.split] at hquoted
        exact List.forall_mem_append.mp hquoted
      rw [Apart, hout.split] at happart
      obtain ⟨happart, happart', _⟩ := List.pairwise_append.mp happart
      have htext : above ++ line ++ back = above ++ (line ++ back) := List.append_assoc _ _ _
      -- The strings that start before the end of the line do so in bytes as well.
      have hend : byteSize above + byteSize line =
        byteIndex (above ++ (line ++ back)) (above.length + line.length) := by
        rw [← byteSize_append, ← List.length_append, ← htext, byteIndex_append]
      have htaken : (strings.map (byteSpan (above ++ (line ++ back)))).takeWhile
          (fun s => s.start < byteSize above + byteSize line) =
          here.map (byteSpan (above ++ (line ++ back))) := by
        rw [List.takeWhile_map, ← hout.taken]
        refine congrArg _ (congrArg (List.takeWhile · strings) (funext fun s => ?_))
        simp only [Function.comp_apply, byteSpan, hend, byteIndex_lt_iff]
      have hleft : (strings.map (byteSpan (above ++ (line ++ back)))).drop
          (here.map (byteSpan (above ++ (line ++ back)))).length =
          later.map (byteSpan (above ++ (line ++ back))) := by
        rw [List.length_map, ← List.map_drop, hout.left]
      rw [requoteLines, Layout.requoteLines, htaken, hleft, requoteLine_eq hout.feed hfirst happart hout.on,
        ok_bind, isVerbatimLine_inBytes, hout.taken, hout.left]
      rcases hout.ends with ⟨rfl, rfl, hnone⟩ | ⟨hmore, rfl⟩
      · rfl
      · have habove : above ++ (line ++ '\n' :: unlines ls) = above ++ (line ++ ['\n']) ++ unlines ls := by
          simp
        have hlength : (above ++ (line ++ ['\n'])).length = above.length + line.length + 1 := by
          simp only [List.length_append, List.length_cons, List.length_nil]
          omega
        have hsize : byteSize (above ++ (line ++ ['\n'])) = byteSize above + byteSize line + 1 := by
          rw [byteSize_append, byteSize_append, ← Nat.add_assoc]
          rfl
        have hrest := @ih (above ++ (line ++ ['\n'])) later hmore (by rw [← habove]; exact hlast) happart'
          fun s hs => by rw [hlength]; exact hout.below s hs
        rw [hlength, hsize, ← habove] at hrest
        rw [hrest]
        rfl

/-! ## Commas and indentation -/

theorem cutLast_eq {cut : List Char} (h : dropComma text = some cut) : cutLast text = .ok cut := by
  have htrim := dropTrail?_eq_some_iff.mp h
  obtain ⟨blanks, hsplit, _⟩ := exists_dropTail_append isBlank text
  have hsize : byteSize (trimEnd text) = byteSize cut + 1 := by
    rw [htrim, byteSize_append]
    rfl
  have hslice := slice_front cut (',' :: blanks)
  have htext : text = cut ++ ',' :: blanks := by
    rw [hsplit, ← trimEnd, htrim]
    simp
  rw [cutLast, minus, hsize, if_pos (by omega), ok_bind, Nat.add_sub_cancel]
  rw [← htext] at hslice
  exact hslice

theorem dropCommas_eq (ls : List Line) : dropCommas ls = .ok (Layout.dropCommas ls) := by
  induction ls with
  | nil => rfl
  | cons l rest ih =>
      rw [dropCommas, Layout.dropCommas, ih]
      cases hcut : dropComma l.text with
      | none =>
          have hlast : ((trimEnd l.text).getLast? == some ',') = false := by
            refine beq_eq_false_iff_ne.mpr fun hlast => ?_
            obtain ⟨front, hfront⟩ := List.getLast?_eq_some_iff.mp hlast
            have hsome := dropTrail?_eq_some_iff.mpr hfront
            rw [← dropComma, hcut] at hsome
            cases hsome
          rw [hlast, Bool.and_false, Bool.false_and, if_neg Bool.false_ne_true]
          rfl
      | some cut =>
          have htrim := dropTrail?_eq_some_iff.mp hcut
          have hlast : ((trimEnd l.text).getLast? == some ',') = true := by
            rw [htrim, List.getLast?_concat]
            rfl
          rw [hlast, cutLast_eq hcut, Bool.and_true]
          dsimp only
          split
          · rfl
          · rfl

theorem reindent_eq (style : Style) (line : List Char) : reindent style line = .ok (Layout.reindent style line) := by
  have hsplit := @List.takeWhile_append_dropWhile _ (· == ' ') line
  have hspaces : byteSize (line.takeWhile (· == ' ')) = (line.takeWhile (· == ' ')).length := by
    refine byteSize_of_narrow fun c hc => ?_
    have hspace := List.all_eq_true.mp (@List.all_takeWhile _ (· == ' ') line) c hc
    rw [beq_iff_eq.mp hspace]
    rfl
  have hlength : line.length - (line.dropWhile (· == ' ')).length = (line.takeWhile (· == ' ')).length := by
    have hlength := congrArg List.length hsplit
    rw [List.length_append] at hlength
    omega
  have hminus : minus (byteSize line) (byteSize (line.dropWhile (· == ' '))) =
      .ok (line.length - (line.dropWhile (· == ' ')).length) := by
    have hsize := congrArg byteSize hsplit
    rw [byteSize_append] at hsize
    rw [minus, if_pos (by omega), hlength, ← hspaces]
    congr 1
    omega
  rw [reindent, hminus, ok_bind]
  rfl

/-! ## Writing lines -/

theorem joined_eq_nil_iff {written : List (List Char)} : joined written = [] ↔ written = [] := by
  cases written with
  | nil => exact iff_of_true rfl rfl
  | cons l written => simp [joined_cons]

theorem endsBlank_joined {written : List (List Char)} (h : ∀ w ∈ written, '\n' ∉ w) :
    endsBlank (joined written) = true ↔ ∃ l rest, written = [] :: l :: rest := by
  cases written with
  | nil => simp [endsBlank, joined]
  | cons w written =>
      rw [endsBlank, joined_cons]
      simp only [List.reverse_append, List.reverse_singleton, List.cons_append, List.isPrefixOf, BEq.rfl,
        Bool.true_and]
      rcases List.eq_nil_or_concat w with rfl | ⟨front, c, rfl⟩
      · cases written with
        | nil => simp [joined]
        | cons l rest => simp [joined_cons]
      · have hc : '\n' ≠ c := by
          rintro rfl
          exact h _ List.mem_cons_self (by simp)
        simp [hc]

/-- A line is written as it is laid out. -/
theorem layLine_eq {written : List (List Char)} (h : ∀ w ∈ written, '\n' ∉ w) (l : Line) :
    layLine style (joined written) l = .ok (joined (Layout.layLine style written l)) := by
  unfold layLine Layout.layLine
  split
  · rw [joined_cons]
  · split
    · have hends := endsBlank_joined h
      have hempty : (joined written).isEmpty = written.isEmpty := by
        rw [Bool.eq_iff_iff, List.isEmpty_iff, List.isEmpty_iff, joined_eq_nil_iff]
      rw [hempty]
      match written with
      | [] => rfl
      | [[]] =>
          have hnot : endsBlank (joined [[]]) = false := rfl
          rw [hnot]
          rfl
      | [] :: m :: written =>
          rw [hends.mpr ⟨m, written, rfl⟩]
          rfl
      | (c :: m) :: written =>
          have hnot : endsBlank (joined ((c :: m) :: written)) = false := by
            refine Bool.eq_false_iff.mpr fun hblank => ?_
            obtain ⟨_, _, heq⟩ := hends.mp hblank
            cases heq
          rw [hnot]
          dsimp only
          rw [joined_cons []]
          rfl
    · rw [reindent_eq, ok_bind, joined_cons]
      rfl

theorem foldlM_layLine {written : List (List Char)} (ls : List Line) (hls : ∀ l ∈ ls, '\n' ∉ l.text)
    (h : ∀ w ∈ written, '\n' ∉ w) :
    ls.foldlM (layLine style) (joined written) = .ok (joined (ls.foldl (Layout.layLine style) written)) := by
  induction ls generalizing written with
  | nil => rfl
  | cons l ls ih =>
      have hstep : ∀ w ∈ Layout.layLine style written l, '\n' ∉ w :=
        @feed_not_mem_foldl_layLine style [l] written
          (fun m hm => hls m (by rw [List.mem_singleton.mp hm]; exact List.mem_cons_self)) h
      rw [List.foldlM_cons, layLine_eq h, ok_bind, List.foldl_cons]
      exact ih (fun m hm => hls m (List.mem_cons_of_mem _ hm)) hstep

theorem dropFeeds_joined {written : List (List Char)} (h : ∀ w ∈ written, '\n' ∉ w) :
    dropFeeds (joined written).reverse = (joined (dropEmpty written)).reverse := by
  fun_induction dropEmpty written with
  | case1 l written ih =>
      have hrest := ih fun w hw => h w (List.mem_cons_of_mem _ hw)
      rw [← hrest, joined_cons, joined_cons]
      simp [dropFeeds]
  | case2 written hwritten =>
      rcases cases_of_kept hwritten with rfl | rfl | ⟨c, l, written, rfl⟩
      · rfl
      · rfl
      · obtain ⟨front, d, hlast⟩ := (List.eq_nil_or_concat (c :: l)).resolve_left (List.cons_ne_nil c l)
        have hd : d ≠ '\n' := by
          rintro rfl
          exact h (c :: l) List.mem_cons_self (by rw [hlast]; simp)
        rw [joined_cons, hlast]
        simp only [List.concat_eq_append, List.reverse_append, List.reverse_singleton, List.cons_append]
        rw [dropFeeds]
        rintro s heq
        injection heq with _ heq
        injection heq with heq _
        exact hd heq

/-- The editor never goes wrong on strings that lie apart, each a quoted literal on one line: it writes the
layout of the text. -/
theorem layText_eq (hquoted : ∀ s ∈ literals.strings, Quoted text s) (happart : Apart literals.strings) :
    layText style (inBytes text literals) text = .ok (Layout.layText style literals text) := by
  have hlines := @requoteLines_eq style literals [] literals.strings _ (pieces_ne_nil text)
    (by rw [unlines_pieces]; exact hquoted) happart fun s _ => Nat.zero_le _
  rw [List.nil_append, unlines_pieces] at hlines
  have hfeeds := @feed_not_mem_requoteLines style literals literals.strings (pieces text)
    (fun _ hl => not_mem_of_mem_pieces hl) 0
  have hkept : ∀ ls : List Line, (∀ l ∈ ls, '\n' ∉ l.text) →
      (ls.foldlM (layLine style) [] >>= fun written => Except.ok (dropFeeds written.reverse).reverse) =
        .ok (layLines style ls) := by
    intro ls hls
    have hwritten := @feed_not_mem_foldl_layLine style ls [] hls (by simp)
    have hfold := @foldlM_layLine style [] ls hls (by simp)
    rw [show joined [] = [] from rfl] at hfold
    rw [hfold, ok_bind, dropFeeds_joined hwritten, List.reverse_reverse]
    rfl
  show (requoteLines style (inBytes text literals) (pieces text) (byteSize [])
    (literals.strings.map (byteSpan text)) >>= _) = _
  rw [hlines, ok_bind]
  have hcommas : ∀ ls, withoutCommas style ls = .ok (Layout.withoutCommas style ls) := by
    intro ls
    rw [withoutCommas, Layout.withoutCommas, dropCommas_eq]
    split
    · rfl
    · rfl
  rw [hcommas, ok_bind]
  exact hkept _ (feed_not_mem_withoutCommas hfeeds)

/-- Layout without the removal of commas changes blanks and quotes only, for any ranges that stay as they are: no
index goes wrong, all that is not blank is that of the requoted text, and at most one line feed ends the text. -/
theorem layText_keeps_visible (style : Style) (literals : Literals) (text : List Char)
    (hcommas : style.trailingComma ≠ .never) (hquoted : ∀ s ∈ literals.strings, Quoted text s)
    (happart : Apart literals.strings) :
    layText style (inBytes text literals) text = .ok (Layout.layText style literals text) ∧
      visible (Layout.layText style literals text) = visible (requoted style text literals.strings) ∧
      EndsOnce (Layout.layText style literals text) :=
  ⟨layText_eq hquoted happart, visible_layText hcommas hquoted happart, endsOnce_layText style literals text⟩

/-- Two calls with strings, one of them with a wide character and one with the preferred quote inside. -/
def callsText : List Char :=
  "f(\"é\", \"it\x27s\")  \n\n\n  g(\"x\")".toList

def callsLiterals : Literals :=
  ⟨[⟨2, 5⟩, ⟨7, 13⟩, ⟨23, 26⟩], [⟨14, 18⟩]⟩

theorem layText_keeps_visible_calls :
    (∀ s ∈ callsLiterals.strings, Quoted callsText s) ∧ Apart callsLiterals.strings ∧
      layText { tabWidth := 4 } (inBytes callsText callsLiterals) callsText =
        .ok "f(\x27é\x27, \"it\x27s\")\n\n    g(\x27x\x27)\n".toList := by
  have hquoted : ∀ s ∈ callsLiterals.strings, Quoted callsText s := by
    simp only [callsLiterals, List.forall_mem_cons]
    exact ⟨⟨"f(".toList, '\x22', ['é'], callsText.drop 5, by decide, .inl rfl, by decide, rfl⟩,
      ⟨callsText.take 7, '\x22', "it\x27s".toList, callsText.drop 13, by decide, .inl rfl, by decide, rfl⟩,
      ⟨callsText.take 23, '\x22', ['x'], [')'], by decide, .inl rfl, by decide, rfl⟩, by simp⟩
  have happart : Apart callsLiterals.strings := by
    unfold Apart callsLiterals
    decide
  refine ⟨hquoted, happart, ?_⟩
  rw [(layText_keeps_visible { tabWidth := 4 } callsLiterals callsText (by decide) hquoted happart).1]
  refine congrArg Except.ok ?_
  decide

end Bytes
end Layout
end StoryDocs
