import StoryDocs.Proofs.Layout.Lines
import StoryDocs.Proofs.Text.Splice

/-!
# Requoting a text line by line

The strings of a text are handed out to its lines in order, and every line replaces its own with offsets from
its start.  Where the strings are quoted literals that lie apart, each on one line, each of them goes to the
line that holds it, and the lines join to the text in which every string is replaced.
-/

namespace StoryDocs
namespace Layout

open Text Script

variable {style : Style} {literals : Literals} {text above line back : List Char} {strings : List Span}
  {s : Span}

/-! ## Quoted literals -/

/-- A range of a text that holds a quoted literal on one line. -/
def Quoted (text : List Char) (s : Span) : Prop :=
  ∃ front quote content rest, text = front ++ (quote :: content ++ [quote] ++ rest) ∧ IsQuote quote ∧
    '\n' ∉ content ∧ s = ⟨front.length, front.length + (content.length + 2)⟩

/-- Ranges in order that do not overlap. -/
def Apart (strings : List Span) : Prop :=
  strings.Pairwise fun a b => a.stop ≤ b.start

theorem Quoted.lt (h : Quoted text s) : s.start < s.stop ∧ s.stop ≤ text.length := by
  obtain ⟨front, quote, content, rest, rfl, _, _, rfl⟩ := h
  simp only [List.length_append, List.length_cons, List.length_nil]
  omega

theorem Apart.sorted (h : Apart strings) (hquoted : ∀ s ∈ strings, Quoted text s) : Sorted strings := by
  refine List.Pairwise.imp_of_mem ?_ h
  intro a b ha _ hab
  have hlt := (hquoted a ha).lt
  omega

theorem feed_not_mem_literal {quote : Char} {content : List Char} (hquote : IsQuote quote)
    (hcontent : '\n' ∉ content) : '\n' ∉ quote :: content ++ [quote] := by
  have hne : '\n' ≠ quote := by
    rcases hquote with rfl | rfl
    · decide
    · decide
  simp [hcontent, hne]

/-- A literal that starts on a line lies on it. -/
theorem Quoted.on_line (h : Quoted (above ++ (line ++ back)) s) (hback : back = [] ∨ back.head? = some '\n')
    (hfrom : above.length ≤ s.start) (hto : s.start < above.length + line.length) :
    ∃ front quote content rest, line = front ++ (quote :: content ++ [quote] ++ rest) ∧ IsQuote quote ∧
      '\n' ∉ content ∧
      s = ⟨above.length + front.length, above.length + front.length + (content.length + 2)⟩ := by
  obtain ⟨front, quote, content, rest, htext, hquote, hcontent, rfl⟩ := h
  dsimp only at hfrom hto
  have hfeed := feed_not_mem_literal hquote hcontent
  -- The text before the literal is that above the line and a front of the line.
  obtain ⟨inner, rfl⟩ : ∃ inner, front = above ++ inner := by
    rcases List.append_eq_append_iff.mp htext with ⟨inner, hinner, _⟩ | ⟨inner, hinner, _⟩
    · exact ⟨inner, hinner⟩
    · have hlength := congrArg List.length hinner
      rw [List.length_append] at hlength
      exact ⟨[], by rw [hinner, List.length_eq_zero_iff.mp (by omega : inner.length = 0)]; simp⟩
  rw [List.length_append] at hto
  rw [List.append_assoc] at htext
  have hline := List.append_cancel_left htext
  rcases List.append_eq_append_iff.mp hline with ⟨tail, htail, _⟩ | ⟨tail, htail, hrest⟩
  · have hlength := congrArg List.length htail
    rw [List.length_append] at hlength
    omega
  · rcases List.append_eq_append_iff.mp hrest with ⟨more, hmore, _⟩ | ⟨beyond, hover, hback'⟩
    · exact ⟨inner, quote, content, more, by rw [htail, hmore], hquote, hcontent,
        by rw [List.length_append]⟩
    · -- What the line lacks of the literal would start with the line feed.
      have hnil : beyond = [] := by
        cases beyond with
        | nil => rfl
        | cons c beyond =>
            rcases hback with hnil | hhead
            · rw [hnil] at hback'
              cases hback'
            · rw [hback'] at hhead
              cases hhead
              exact absurd (by rw [hover]; simp) hfeed
      rw [hnil, List.append_nil] at hover
      exact ⟨inner, quote, content, [], by rw [htail, hover, List.append_nil], hquote, hcontent,
        by rw [List.length_append]⟩

/-- The replacement of a literal. -/
theorem requoteIn_literal (front content rest : List Char) (quote : Char) (n : Nat) :
    requoteIn style (front ++ (quote :: content ++ [quote] ++ rest)) n
        ⟨n + front.length, n + front.length + (content.length + 2)⟩ =
      ⟨front.length, front.length + (content.length + 2), requote content quote style.singleQuote⟩ := by
  have hstart : n + front.length - n = front.length := by omega
  have hstop : n + front.length + (content.length + 2) - n = front.length + (content.length + 2) := by omega
  have hlength : content.length + 2 = (quote :: content ++ [quote]).length := by simp
  have hraw : ((front ++ (quote :: content ++ [quote] ++ rest)).drop front.length).take
      (front.length + (content.length + 2) - front.length) = quote :: content ++ [quote] := by
    rw [Nat.add_sub_cancel_left, List.drop_left, hlength, List.take_left]
  have hcontent : ((quote :: content ++ [quote]).drop 1).take ((quote :: content ++ [quote]).length - 2) =
      content := by simp
  simp only [requoteIn, hstart, hstop, hraw, hcontent]
  rfl

/-- What comes in the place of a string of a text. -/
abbrev replacement (style : Style) (text : List Char) (s : Span) : Replacement :=
  requoteIn style text 0 s

/-- A text with all its strings replaced. -/
def requoted (style : Style) (text : List Char) (strings : List Span) : List Char :=
  splice (strings.map (replacement style text)) text

theorem replacement_start (s : Span) : (replacement style text s).start = s.start := rfl

theorem replacement_stop (s : Span) : (replacement style text s).stop = s.stop := rfl

/-- A line replaces a string as the text does, from its own start on. -/
theorem requoteIn_line (h : Quoted (above ++ (line ++ back)) s) (hback : back = [] ∨ back.head? = some '\n')
    (hfrom : above.length ≤ s.start) (hto : s.start < above.length + line.length) :
    requoteIn style line above.length s =
      (replacement style (above ++ (line ++ back)) s).behind above.length := by
  obtain ⟨front, quote, content, rest, rfl, _, _, rfl⟩ := h.on_line hback hfrom hto
  have hwhole := @requoteIn_literal style (above ++ front) content (rest ++ back) quote 0
  have htext : above ++ (front ++ (quote :: content ++ [quote] ++ rest) ++ back) =
      above ++ front ++ (quote :: content ++ [quote] ++ (rest ++ back)) := by simp
  rw [Nat.zero_add, List.length_append] at hwhole
  rw [requoteIn_literal, htext, replacement, hwhole, Replacement.behind]
  dsimp only
  congr 1
  · omega
  · omega

theorem fits_requoteIn {n start stop : Nat} (happart : Apart strings) (hle : start ≤ stop)
    (hwithin : ∀ s ∈ strings, start ≤ s.start - n ∧ s.start ≤ s.stop ∧ s.stop - n ≤ stop) :
    Fits start stop (strings.map (requoteIn style text n)) := by
  induction strings generalizing start with
  | nil => exact hle
  | cons s strings ih =>
      obtain ⟨hfirst, hrest⟩ := List.pairwise_cons.mp happart
      obtain ⟨hstart, hs, hstop⟩ := hwithin s List.mem_cons_self
      refine ⟨hstart, Nat.sub_le_sub_right hs n, ih hrest hstop fun t ht => ?_⟩
      obtain ⟨_, ht', hstop'⟩ := hwithin t (List.mem_cons_of_mem _ ht)
      exact ⟨Nat.sub_le_sub_right (hfirst t ht) n, ht', hstop'⟩

/-! ## Strings and lines -/

/-- The strings that start before a place come first, and the others start there or behind it. -/
theorem Sorted.exists_split (h : Sorted strings) (stop : Nat) : ∃ here later, strings = here ++ later ∧
    strings.takeWhile (fun s => s.start < stop) = here ∧ strings.drop here.length = later ∧
    (∀ s ∈ here, s.start < stop) ∧ ∀ s ∈ later, stop ≤ s.start := by
  obtain ⟨htake, hdrop⟩ := h.takeWhile_eq stop
  have hsplit := List.take_append_drop (strings.takeWhile fun s => s.start < stop).length strings
  rw [List.prefix_iff_eq_take.mp (List.takeWhile_prefix fun s : Span => decide (s.start < stop)) |>.symm]
    at hsplit
  refine ⟨_, _, hsplit.symm, rfl, rfl, ?_, ?_⟩
  · intro s hs
    rw [htake] at hs
    exact of_decide_eq_true (List.mem_filter.mp hs).2
  · intro s hs
    rw [hdrop] at hs
    exact of_decide_eq_true (List.mem_filter.mp hs).2

/-- The strings of a line are replaced as those of the text. -/
theorem requoteLine_eq (hquoted : ∀ s ∈ strings, Quoted (above ++ (line ++ back)) s)
    (hback : back = [] ∨ back.head? = some '\n')
    (hon : ∀ s ∈ strings, above.length ≤ s.start ∧ s.start < above.length + line.length) :
    requoteLine style line above.length strings =
      spliceFrom above.length (strings.map (replacement style (above ++ (line ++ back)))) line := by
  have hmap : strings.map (requoteIn style line above.length) =
      (strings.map (replacement style (above ++ (line ++ back)))).map (Replacement.behind above.length) := by
    rw [List.map_map]
    refine List.map_congr_left fun s hs => ?_
    exact requoteIn_line (hquoted s hs) hback (hon s hs).1 (hon s hs).2
  have hstops : ∀ r ∈ strings.map (replacement style (above ++ (line ++ back))), above.length ≤ r.stop := by
    intro r hr
    obtain ⟨s, hs, rfl⟩ := List.mem_map.mp hr
    have hlt := (hquoted s hs).lt.1
    have hfrom := (hon s hs).1
    rw [replacement_stop]
    omega
  rw [requoteLine, hmap, splice, spliceFrom_behind 0 hstops, Nat.add_zero]

/-- No literal starts on a line feed or at the end of a text. -/
theorem Quoted.not_on_feed (h : Quoted (above ++ (line ++ back)) s) (hback : back = [] ∨ back.head? = some '\n')
    (hfrom : above.length + line.length ≤ s.start) : back ≠ [] ∧ above.length + line.length + 1 ≤ s.start := by
  obtain ⟨front, quote, content, rest, htext, hquote, _, rfl⟩ := h
  dsimp only at hfrom ⊢
  rw [← List.append_assoc] at htext
  rcases List.append_eq_append_iff.mp htext with ⟨inner, hinner, hback'⟩ | ⟨inner, hinner, hlit⟩
  · rcases hback with hnil | hhead
    · rw [hnil] at hback'
      simp at hback'
    · refine ⟨?_, ?_⟩
      · rintro rfl
        cases hhead
      · rw [hinner, List.length_append, List.length_append]
        cases inner with
        | nil =>
            rw [hback'] at hhead
            cases hhead
            rcases hquote with hquote | hquote
            · cases hquote
            · cases hquote
        | cons c inner =>
            rw [List.length_cons]
            omega
  · have hlength := congrArg List.length hinner
    simp only [List.length_append] at hlength
    have hnil : inner = [] := List.length_eq_zero_iff.mp (by omega)
    rw [hnil, List.nil_append] at hlit
    rcases hback with hback | hhead
    · rw [hback] at hlit
      cases hlit
    · rw [← hlit] at hhead
      cases hhead
      rcases hquote with hquote | hquote
      · cases hquote
      · cases hquote

/-- How the strings of lines are handed out: some lie on the first line, and the others below it. -/
structure HandedOut (above line : List Char) (ls : List (List Char)) (strings here later : List Span)
    (back : List Char) : Prop where
  split : strings = here ++ later
  taken : strings.takeWhile (fun s => s.start < above.length + line.length) = here
  left : strings.drop here.length = later
  join : unlines (line :: ls) = line ++ back
  feed : back = [] ∨ back.head? = some '\n'
  ends : ls = [] ∧ back = [] ∧ later = [] ∨ ls ≠ [] ∧ back = '\n' :: unlines ls
  on : ∀ s ∈ here, above.length ≤ s.start ∧ s.start < above.length + line.length
  below : ∀ s ∈ later, above.length + line.length + 1 ≤ s.start

theorem exists_handedOut {ls : List (List Char)} (hquoted : ∀ s ∈ strings, Quoted (above ++ unlines (line :: ls)) s)
    (happart : Apart strings) (hfrom : ∀ s ∈ strings, above.length ≤ s.start) :
    ∃ here later back, HandedOut above line ls strings here later back := by
  obtain ⟨here, later, hsplit, hhere, hlater, hbefore, hbehind⟩ :=
    (happart.sorted hquoted).exists_split (above.length + line.length)
  obtain ⟨back, hjoin, hback, hends⟩ : ∃ back, unlines (line :: ls) = line ++ back ∧
      (back = [] ∨ back.head? = some '\n') ∧
      (ls = [] ∧ back = [] ∨ ls ≠ [] ∧ back = '\n' :: unlines ls) := by
    cases ls with
    | nil => exact ⟨[], (List.append_nil line).symm, .inl rfl, .inl ⟨rfl, rfl⟩⟩
    | cons l ls => exact ⟨'\n' :: unlines (l :: ls), rfl, .inr rfl, .inr ⟨List.cons_ne_nil _ _, rfl⟩⟩
  rw [hjoin] at hquoted
  have hbelow : ∀ s ∈ later, back ≠ [] ∧ above.length + line.length + 1 ≤ s.start := fun s hs =>
    (hquoted s (by rw [hsplit]; exact List.mem_append_right _ hs)).not_on_feed hback (hbehind s hs)
  refine ⟨here, later, back, hsplit, hhere, hlater, hjoin, hback, ?_, fun s hs => ⟨?_, hbefore s hs⟩,
    fun s hs => (hbelow s hs).2⟩
  · rcases hends with ⟨hls, hnil⟩ | hmore
    · exact .inl ⟨hls, hnil, List.eq_nil_iff_forall_not_mem.mpr fun s hs => (hbelow s hs).1 hnil⟩
    · exact .inr hmore
  · exact hfrom s (by rw [hsplit]; exact List.mem_append_left _ hs)

/-- The requoted lines join to the requoted text. -/
theorem unlines_requoteLines {ls : List (List Char)} (hls : ls ≠ [])
    (hquoted : ∀ s ∈ strings, Quoted (above ++ unlines ls) s) (happart : Apart strings)
    (hfrom : ∀ s ∈ strings, above.length ≤ s.start) :
    unlines ((requoteLines style literals ls above.length strings).map Line.text) =
      spliceFrom above.length (strings.map (replacement style (above ++ unlines ls))) (unlines ls) := by
  induction ls generalizing above strings with
  | nil => exact absurd rfl hls
  | cons line ls ih =>
      obtain ⟨here, later, back, hout⟩ := exists_handedOut hquoted happart hfrom
      rw [hout.join] at hquoted ⊢
      obtain ⟨hfirst, hlast⟩ : (∀ s ∈ here, Quoted (above ++ (line ++ back)) s) ∧
          ∀ s ∈ later, Quoted (above ++ (line ++ back)) s := by
        rw [hout.split] at hquoted
        exact List.forall_mem_append.mp hquoted
      rw [Apart, hout.split] at happart
      obtain ⟨happart, happart', _⟩ := List.pairwise_append.mp happart
      -- The strings that the first line hands out end on it, and all others start below it.
      have hfits : Fits above.length (above.length + line.length)
          (here.map (replacement style (above ++ (line ++ back)))) := by
        refine fits_requoteIn happart (Nat.le_add_right _ _) fun s hs => ?_
        obtain ⟨front, quote, content, rest, rfl, _, _, rfl⟩ :=
          (hfirst s hs).on_line hout.feed (hout.on s hs).1 (hout.on s hs).2
        simp only [List.length_append, List.length_cons, List.length_nil]
        omega
      have hranges : ∀ r ∈ later.map (replacement style (above ++ (line ++ back))),
          above.length + line.length + 1 ≤ r.start ∧ r.start ≤ r.stop := by
        intro r hr
        obtain ⟨s, hs, rfl⟩ := List.mem_map.mp hr
        exact ⟨hout.below s hs, Nat.le_of_lt (hlast s hs).lt.1⟩
      have hranges' : ∀ r ∈ later.map (replacement style (above ++ (line ++ back))),
          above.length + line.length ≤ r.start ∧ r.start ≤ r.stop := fun r hr =>
        ⟨Nat.le_of_succ_le (hranges r hr).1, (hranges r hr).2⟩
      rw [requoteLines, hout.taken, hout.left, List.map_cons, requoteLine_eq hfirst hout.feed hout.on, hout.split,
        List.map_append, spliceFrom_append hfits hranges']
      rcases hout.ends with ⟨rfl, rfl, hnone⟩ | ⟨hmore, rfl⟩
      · rw [hnone]
        simp [requoteLines, unlines, spliceFrom]
      · have habove : above ++ (line ++ '\n' :: unlines ls) = above ++ (line ++ ['\n']) ++ unlines ls := by
          simp
        have hlength : (above ++ (line ++ ['\n'])).length = above.length + line.length + 1 := by
          simp only [List.length_append, List.length_cons, List.length_nil]
          omega
        have hrest := @ih (above ++ (line ++ ['\n'])) later hmore (by rw [← habove]; exact hlast) happart'
          fun s hs => by rw [hlength]; exact hout.below s hs
        rw [hlength, ← habove] at hrest
        have hne : (requoteLines style literals ls (above.length + line.length + 1) later).map Line.text ≠ [] := by
          obtain ⟨l, ls, rfl⟩ := List.exists_cons_of_ne_nil hmore
          simp [requoteLines]
        have hfeed := @spliceFrom_later ['\n'] (unlines ls)
          (later.map (replacement style (above ++ (line ++ '\n' :: unlines ls)))) (above.length + line.length)
          hranges
        rw [unlines_cons hne, hrest]
        exact congrArg _ hfeed.symm

theorem unlines_requoteLines_pieces (hquoted : ∀ s ∈ strings, Quoted text s) (happart : Apart strings) :
    unlines ((requoteLines style literals (pieces text) 0 strings).map Line.text) =
      requoted style text strings := by
  have hlines := @unlines_requoteLines style literals [] strings _ (pieces_ne_nil text)
    (by rw [unlines_pieces]; exact hquoted) happart fun s _ => Nat.zero_le _
  rw [unlines_pieces] at hlines
  exact hlines

/-! ## Lines stay lines -/

theorem mem_spliceFrom {c : Char} {rs : List Replacement} {n : Nat} (h : c ∈ spliceFrom n rs text) :
    c ∈ text ∨ ∃ r ∈ rs, c ∈ r.text := by
  induction rs generalizing n text with
  | nil => exact .inl h
  | cons r rs ih =>
      rw [spliceFrom, List.mem_append, List.mem_append] at h
      rcases h with (h | h) | h
      · exact .inl (List.mem_of_mem_take h)
      · exact .inr ⟨r, List.mem_cons_self, h⟩
      · rcases ih h with h | ⟨q, hq, h⟩
        · exact .inl (List.mem_of_mem_drop h)
        · exact .inr ⟨q, List.mem_cons_of_mem _ hq, h⟩

theorem mem_requoteContent {old new c : Char} {content : List Char}
    (h : c ∈ requoteContent old new content) : c ∈ content ∨ c = '\\' := by
  fun_induction requoteContent old new content with
  | case1 => exact .inl h
  | case2 => exact .inl h
  | case3 d s hd ih =>
      rcases List.mem_cons.mp h with rfl | h
      · exact .inl (by simp)
      · exact (ih h).imp_left fun h => by simp [h]
  | case4 d s hd ih =>
      rcases List.mem_cons.mp h with rfl | h
      · exact .inr rfl
      · rcases List.mem_cons.mp h with rfl | h
        · exact .inl (by simp)
        · exact (ih h).imp_left fun h => by simp [h]
  | case5 d s hs hc hd ih =>
      rcases List.mem_cons.mp h with rfl | h
      · exact .inr rfl
      · rcases List.mem_cons.mp h with rfl | h
        · exact .inl (by simp)
        · exact (ih h).imp_left fun h => by simp [h]
  | case6 d s hs hc hd ih =>
      rcases List.mem_cons.mp h with rfl | h
      · exact .inl (by simp)
      · exact (ih h).imp_left fun h => by simp [h]

/-- Requoting puts no line feed into a string. -/
theorem feed_not_mem_requote {content : List Char} {old : Char} (preferSingle : Bool)
    (hcontent : '\n' ∉ content) : '\n' ∉ requote content old preferSingle := by
  have hquote : '\n' ≠ chosenQuote content preferSingle := by
    rcases isQuote_chosenQuote content preferSingle with hquote | hquote
    · rw [hquote]
      decide
    · rw [hquote]
      decide
  intro h
  rw [requote, List.cons_append, List.mem_cons, List.mem_append, List.mem_singleton] at h
  rcases h with h | h | h
  · exact hquote h
  · split at h
    · exact hcontent h
    · rcases mem_requoteContent h with h | h
      · exact hcontent h
      · cases h
  · exact hquote h

theorem feed_not_mem_requoteLine (hline : '\n' ∉ line) (n : Nat) :
    '\n' ∉ requoteLine style line n strings := by
  intro h
  rcases mem_spliceFrom h with h | ⟨r, hr, h⟩
  · exact hline h
  · obtain ⟨s, _, rfl⟩ := List.mem_map.mp hr
    refine feed_not_mem_requote style.singleQuote ?_ h
    intro hcontent
    exact hline (List.mem_of_mem_drop (List.mem_of_mem_take (List.mem_of_mem_drop
      (List.mem_of_mem_take hcontent))))

theorem feed_not_mem_requoteLines {ls : List (List Char)} (hls : ∀ l ∈ ls, '\n' ∉ l) (n : Nat) :
    ∀ l ∈ requoteLines style literals ls n strings, '\n' ∉ l.text := by
  induction ls generalizing n strings with
  | nil =>
      intro l hl
      cases hl
  | cons line ls ih =>
      intro l hl
      rw [requoteLines] at hl
      rcases List.mem_cons.mp hl with rfl | hl
      · exact feed_not_mem_requoteLine (hls line List.mem_cons_self) n
      · exact ih (fun m hm => hls m (List.mem_cons_of_mem _ hm)) _ l hl

end Layout
end StoryDocs
