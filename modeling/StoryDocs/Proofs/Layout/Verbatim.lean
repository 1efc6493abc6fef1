import StoryDocs.Proofs.Layout.Placement
import StoryDocs.Proofs.Layout.Whitespace

/-!
# Templates in the layout

A template, or a string over several lines, may start in the middle of one line and end in the middle of another.
Its lines but the first start inside it and are kept; the first one is trimmed at its end where its line does not
start in a literal itself.  No other step of the layout reaches into it, wherever its lines begin and end.
-/

namespace StoryDocs
namespace Layout

open Text Script

variable {style : Style} {literals : Literals} {text : List Char} {ls vs ms : List Line} {l : Line} {t : Span}

/-! ## Characters that stay -/

/-- The characters of a text that no step of the layout drops. -/
def code (s : List Char) : List Char :=
  (visible s).filter (· != ',')

@[simp] theorem code_nil : code [] = [] := rfl

@[simp] theorem code_append (u v : List Char) : code (u ++ v) = code u ++ code v := by
  rw [code, visible_append, List.filter_append, code, code]

theorem code_feeds {s : List Char} (h : s.all (· == '\n') = true) : code s = [] := by
  have hblank : visible s = [] := by
    refine visible_eq_nil_iff.mpr (List.all_eq_true.mpr fun c hc => ?_)
    rw [beq_iff_eq.mp (List.all_eq_true.mp h c hc)]
    rfl
  rw [code, hblank]
  rfl

theorem code_unlines (ls : List (List Char)) : code (unlines ls) = ls.flatMap code := by
  rw [code, visible_unlines, List.filter_flatMap]
  rfl

theorem code_layLines (style : Style) (ls : List Line) :
    code (layLines style ls) = ls.flatMap fun l => code l.text := by
  rw [code, visible_layLines, List.filter_flatMap]
  rfl

theorem code_dropComma {l cut : List Char} (h : dropComma l = some cut) : code cut = code l := by
  have htrim := dropTrail?_eq_some_iff.mp h
  have hcomma : code [','] = [] := rfl
  calc code cut = code (cut ++ [',']) := by rw [code_append, hcomma, List.append_nil]
    _ = code (trimEnd l) := by rw [htrim]
    _ = code l := by rw [code, visible_trimEnd, code]

theorem code_joined_foldl (style : Style) (ls : List Line) :
    code (joined (ls.foldl (layLine style) [])) = ls.flatMap fun l => code l.text := by
  obtain ⟨blanks, hblanks, hjoin⟩ := exists_joined_foldl style ls
  rw [hjoin, code_append, code_feeds hblanks, code_layLines, List.append_nil]

/-- Lines above others lose no more than commas. -/
theorem exists_withoutCommas_append (ls ms : List Line) : ∃ kept,
    withoutCommas style (ls ++ ms) = kept ++ withoutCommas style ms ∧ kept.length = ls.length ∧
      kept.flatMap (fun l => code l.text) = ls.flatMap fun l => code l.text := by
  unfold withoutCommas
  split
  · induction ls with
    | nil => exact ⟨[], rfl, rfl, rfl⟩
    | cons l ls ih =>
        obtain ⟨kept, hkept, hlength, hcode⟩ := ih
        rw [List.cons_append, dropCommas, hkept]
        refine ⟨_ :: kept, rfl, by rw [List.length_cons, List.length_cons, hlength], ?_⟩
        rw [List.flatMap_cons, List.flatMap_cons, hcode]
        congr 1
        split
        · rename_i cut hcut
          split
          · exact code_dropComma hcut
          · rfl
        · rfl
  · exact ⟨ls, rfl, rfl, rfl⟩

/-! ## Lines of a literal -/

/-- Lines that start inside a literal keep their commas. -/
theorem dropCommas_verbatim (hvs : ∀ v ∈ vs, v.verbatim = true) (ms : List Line) :
    dropCommas (vs ++ ms) = vs ++ dropCommas ms := by
  induction vs with
  | nil => rfl
  | cons v vs ih =>
      obtain ⟨hv, hrest⟩ := List.forall_mem_cons.mp hvs
      rw [List.cons_append, dropCommas, ih hrest, hv]
      split
      · rfl
      · rfl

/-- A line whose literal goes on below it closes nothing. -/
theorem closesNext_verbatim (hvs : ∀ v ∈ vs, v.verbatim = true) (hcode : ∃ v ∈ vs, allBlank v.text = false)
    (ms : List Line) : closesNext (vs ++ ms) = false := by
  obtain ⟨v, hv, hblank⟩ := hcode
  cases hfind : vs.find? fun l => !allBlank l.text with
  | none =>
      have hnone := List.find?_eq_none.mp hfind v hv
      rw [hblank] at hnone
      exact absurd rfl hnone
  | some w =>
      have hverbatim := hvs w (List.mem_of_find?_eq_some hfind)
      unfold closesNext
      rw [List.find?_append, hfind]
      simp [hverbatim]

theorem withoutCommas_verbatim (hvs : ∀ v ∈ vs, v.verbatim = true) (hcode : ∃ v ∈ vs, allBlank v.text = false)
    (ms : List Line) : withoutCommas style (l :: (vs ++ ms)) = l :: (vs ++ withoutCommas style ms) := by
  unfold withoutCommas
  split
  · rw [dropCommas, dropCommas_verbatim hvs, closesNext_verbatim hvs hcode, Bool.and_false]
    split
    · rfl
    · rfl
  · rfl

/-- A character that no step of the layout drops. -/
def Stays (c : Char) : Prop :=
  isBlank c = false ∧ c ≠ ','

theorem Stays.ne_feed {c : Char} (h : Stays c) : c ≠ '\n' := by
  rintro rfl
  cases h.1

theorem allBlank_of_getLast? {u : List Char} {c : Char} (h : u.getLast? = some c) (hc : isBlank c = false) :
    allBlank u = false :=
  List.all_eq_false.mpr ⟨c, List.mem_of_getLast? h, by rw [hc]; exact Bool.false_ne_true⟩

/-- The comma of a line is dropped behind a character that stays. -/
theorem exists_dropComma {u b cut : List Char} {c : Char} (hlast : u.getLast? = some c) (hc : Stays c)
    (h : dropComma (u ++ b) = some cut) : ∃ b', cut = u ++ b' := by
  have htrim := dropTrail?_eq_some_iff.mp h
  by_cases hb : allBlank b = true
  · have hnone : trimEnd b = [] := dropTail_eq_nil_iff.mpr hb
    have hend : trimEnd (u ++ b) = u := by
      rw [trimEnd_append_of_getLast? hlast hc.1, hnone, List.append_nil]
    rw [hend] at htrim
    rw [htrim, List.getLast?_concat] at hlast
    exact absurd (Option.some.inj hlast).symm hc.2
  · rw [Bool.not_eq_true] at hb
    rw [trimEnd_append hb] at htrim
    rcases List.append_eq_append_iff.mp htrim with ⟨b', hb', _⟩ | ⟨beyond, hover, hcomma⟩
    · exact ⟨b', hb'⟩
    · cases beyond with
      | nil => exact ⟨[], by rw [hover, List.append_nil, List.append_nil]⟩
      | cons d beyond =>
          have hover' : trimEnd b = [] := by
            have hlength := congrArg List.length hcomma
            simp only [List.length_append, List.length_cons, List.length_nil] at hlength
            exact List.length_eq_zero_iff.mp (by omega)
          rw [trimEnd, dropTail_eq_nil_iff] at hover'
          rw [allBlank, hover'] at hb
          cases hb

/-- What stands before a character that stays is indented anew, and what stands behind it is trimmed. -/
theorem exists_lay_append {p x : List Char} {c : Char} {verbatim : Bool} (hhead : x.head? = some c) (hc : Stays c) :
    ∃ p', lay style ⟨p ++ x, verbatim⟩ = p' ++ (if verbatim then x else trimEnd x) ∧ code p' = code p := by
  obtain ⟨x', rfl⟩ : ∃ x', x = c :: x' := List.head?_eq_some_iff.mp hhead
  cases verbatim with
  | true => exact ⟨p, rfl, rfl⟩
  | false =>
      have hcode : allBlank (c :: x') = false := by
        rw [allBlank, List.all_cons, hc.1]
        rfl
      have hspace : (c == ' ') = false := by
        rw [beq_eq_false_iff_ne]
        rintro rfl
        cases hc.1
      have hcontent : (p ++ c :: x').dropWhile (· == ' ') = p.dropWhile (· == ' ') ++ c :: x' := by
        rw [List.dropWhile_append]
        split
        · rename_i hnil
          rw [List.isEmpty_iff.mp hnil, List.dropWhile_cons, hspace]
          rfl
        · rfl
      obtain ⟨indent, hindent⟩ : ∃ indent, reindent style (p ++ c :: x') =
          indent ++ (p.dropWhile (· == ' ') ++ trimEnd (c :: x')) := by
        unfold reindent
        dsimp only
        rw [hcontent, trimEnd_append hcode]
        exact ⟨_, rfl⟩
      refine ⟨indent ++ p.dropWhile (· == ' '), by rw [List.append_assoc]; exact hindent, ?_⟩
      have hboth := congrArg code hindent
      have htrim : code (trimEnd (c :: x')) = code (c :: x') := by rw [code, visible_trimEnd, code]
      rw [code, visible_reindent, ← code, ← List.append_assoc, code_append, code_append _ (trimEnd _),
        htrim] at hboth
      exact (List.append_cancel_right hboth).symm

/-! ## Lines of a text -/

/-- Where lines start, the first of them at `n`. -/
def lineStarts : Nat → List (List Char) → List Nat
  | _, [] => []
  | n, l :: ls => n :: lineStarts (n + l.length + 1) ls

/-- Where the last line of a text starts. -/
def lastStart (s : List Char) : Nat :=
  extent (pieces s).dropLast

theorem length_lineStarts (n : Nat) (ls : List (List Char)) : (lineStarts n ls).length = ls.length := by
  induction ls generalizing n with
  | nil => rfl
  | cons l ls ih => rw [lineStarts, List.length_cons, ih, List.length_cons]

theorem lineStarts_append (n : Nat) (ls ms : List (List Char)) :
    lineStarts n (ls ++ ms) = lineStarts n ls ++ lineStarts (n + extent ls) ms := by
  induction ls generalizing n with
  | nil => rfl
  | cons l ls ih =>
      have hsum : n + l.length + 1 + extent ls = n + extent (l :: ls) := by
        rw [extent_cons]
        omega
      rw [List.cons_append, lineStarts, ih, hsum, lineStarts, List.cons_append]

theorem le_of_mem_lineStarts {n k : Nat} {ls : List (List Char)} (h : k ∈ lineStarts n ls) :
    n ≤ k ∧ k < n + extent ls := by
  induction ls generalizing n with
  | nil => cases h
  | cons l ls ih =>
      rw [extent_cons]
      rcases List.mem_cons.mp h with rfl | h
      · omega
      · have hlater := ih h
        omega

theorem map_verbatim_requoteLines (ls : List (List Char)) (n : Nat) (strings : List Span) :
    (requoteLines style literals ls n strings).map Line.verbatim = (lineStarts n ls).map literals.isVerbatimLine := by
  induction ls generalizing n strings with
  | nil => rfl
  | cons l ls ih => rw [requoteLines, List.map_cons, ih, lineStarts, List.map_cons]

theorem length_requoteLines (ls : List (List Char)) (n : Nat) (strings : List Span) :
    (requoteLines style literals ls n strings).length = ls.length := by
  induction ls generalizing n strings with
  | nil => rfl
  | cons l ls ih => rw [requoteLines, List.length_cons, ih, List.length_cons]

theorem map_text_requoteLines {strings : List Span} (hquoted : ∀ s ∈ strings, Quoted text s)
    (happart : Apart strings) : (requoteLines style literals (pieces text) 0 strings).map Line.text =
      pieces (requoted style text strings) := by
  have hne : (requoteLines style literals (pieces text) 0 strings).map Line.text ≠ [] := by
    obtain ⟨l, ls, hpieces⟩ := exists_pieces_cons text
    rw [hpieces, requoteLines]
    exact List.cons_ne_nil _ _
  rw [← unlines_requoteLines_pieces hquoted happart, pieces_unlines hne]
  intro l hl
  obtain ⟨m, hm, rfl⟩ := List.mem_map.mp hl
  exact feed_not_mem_requoteLines (fun _ hl => not_mem_of_mem_pieces hl) 0 m hm

theorem length_pieces_requoteLine {strings : List Span} (hquoted : ∀ s ∈ strings, Quoted text s)
    (happart : Apart strings) :
    (pieces (requoteLine style text 0 strings)).length = (pieces text).length := by
  have hlines := congrArg List.length (@map_text_requoteLines style ⟨[], []⟩ text strings hquoted happart)
  rw [List.length_map, length_requoteLines] at hlines
  exact hlines.symm

theorem extent_append (ls ms : List (List Char)) : extent (ls ++ ms) = extent ls + extent ms := by
  induction ls with
  | nil => rw [List.nil_append, extent, Nat.zero_add]
  | cons l ls ih =>
      rw [List.cons_append, extent_cons, ih, extent_cons]
      omega

/-- The line on which one part of a text ends and the next one starts. -/
theorem exists_line {u v ru rv p x' x : List Char} {ps xs' xs : List (List Char)} {f : Nat → Bool}
    (htexts : ls.map Line.text = pieces (ru ++ rv))
    (hflags : ls.map Line.verbatim = (lineStarts 0 (pieces (u ++ v))).map f)
    (hlength : (pieces ru).length = (pieces u).length) (hru : pieces ru = ps ++ [p])
    (hrv : pieces rv = x' :: xs') (hv : pieces v = x :: xs) :
    ∃ front l back, ls = front ++ l :: back ∧ front.map Line.text = ps ∧ l.text = p ++ x' ∧
      back.map Line.text = xs' ∧ l.verbatim = f (lastStart u) ∧
      back.map Line.verbatim = (lineStarts (u.length + x.length + 1) xs).map f := by
  obtain ⟨qs, q, hu⟩ := exists_pieces_concat u
  have hextent := extent_pieces u
  rw [hu, extent_append, extent_cons, extent] at hextent
  have hstart : lastStart u = extent qs := by rw [lastStart, hu, List.dropLast_concat]
  have hbelow : 0 + extent qs + (q ++ x).length + 1 = u.length + x.length + 1 := by
    rw [List.length_append]
    omega
  rw [pieces_append hru hrv] at htexts
  rw [pieces_append hu hv, lineStarts_append, List.map_append, lineStarts, hbelow, Nat.zero_add,
    ← hstart, List.map_cons] at hflags
  obtain ⟨front, rest, rfl, hfront, hrest⟩ := List.map_eq_append_iff.mp htexts
  obtain ⟨l, back, rfl, hl, hback⟩ := List.map_eq_cons_iff.mp hrest
  rw [List.map_append, List.map_cons] at hflags
  have hsame : (front.map Line.verbatim).length = ((lineStarts 0 qs).map f).length := by
    have hfront' := congrArg List.length hfront
    rw [hru, hu, List.length_append, List.length_append, List.length_singleton, List.length_singleton] at hlength
    rw [List.length_map] at hfront' ⊢
    rw [List.length_map, length_lineStarts]
    omega
  obtain ⟨_, htail⟩ := List.append_inj hflags hsame
  obtain ⟨hflag, hflags'⟩ := List.cons.inj htail
  exact ⟨front, l, back, rfl, hfront, hl, hback, hflag, hflags'⟩

/-- Lines that start in a range of verbatim offsets. -/
theorem verbatim_of_map {n : Nat} {y : List Char} {ys zs : List (List Char)} {f : Nat → Bool}
    (h : (vs ++ ms).map Line.verbatim = (lineStarts n (ys ++ y :: zs)).map f) (hlength : vs.length = ys.length + 1)
    (hf : ∀ k, n ≤ k → k ≤ n + extent ys → f k = true) : ∀ v ∈ vs, v.verbatim = true := by
  rw [List.append_cons, lineStarts_append, List.map_append, List.map_append] at h
  have hsame : (vs.map Line.verbatim).length = ((lineStarts n (ys ++ [y])).map f).length := by
    rw [List.length_map, List.length_map, length_lineStarts, List.length_append, hlength, List.length_singleton]
  obtain ⟨hflags, _⟩ := List.append_inj h hsame
  intro v hv
  obtain ⟨k, hk, hflag⟩ := List.mem_map.mp (by rw [← hflags]; exact List.mem_map_of_mem hv :
    v.verbatim ∈ (lineStarts n (ys ++ [y])).map f)
  rw [lineStarts_append, List.mem_append] at hk
  rw [← hflag]
  rcases hk with hk | hk
  · have hrange := le_of_mem_lineStarts hk
    exact hf k hrange.1 hrange.2.le
  · rw [List.mem_singleton.mp hk]
    exact hf _ (Nat.le_add_right _ _) le_rfl

/-! ## A literal in the layout -/

/-- A text whose first line loses the blanks at its end, if it has another line. -/
def trimFirst (s : List Char) : List Char :=
  match pieces s with
  | [] => s
  | [_] => s
  | x :: ls => unlines (trimEnd x :: ls)

theorem trimFirst_of_not_mem {s : List Char} (h : '\n' ∉ s) : trimFirst s = s := by
  rw [trimFirst, pieces_of_not_mem h]

theorem trimFirst_of_pieces {s x : List Char} {ls : List (List Char)} (h : pieces s = x :: ls) (hls : ls ≠ []) :
    trimFirst s = unlines (trimEnd x :: ls) := by
  obtain ⟨m, ls, rfl⟩ := List.exists_cons_of_ne_nil hls
  rw [trimFirst, h]

/-- A text of several lines, its first line trimmed or not. -/
theorem ite_trimFirst {s x : List Char} {ls : List (List Char)} (h : pieces s = x :: ls) (hls : ls ≠ [])
    (verbatim : Bool) :
    (if verbatim then s else trimFirst s) = unlines ((if verbatim then x else trimEnd x) :: ls) := by
  have hwhole := unlines_pieces s
  rw [h] at hwhole
  rw [trimFirst_of_pieces h hls]
  split
  · exact hwhole.symm
  · rfl

/-- The first and the last line of a literal begin and end with its marks. -/
theorem enclosed_pieces {mark : Char} {body x y : List Char} {ys : List (List Char)} (hmark : mark ≠ '\n')
    (h : pieces (mark :: body ++ [mark]) = x :: (ys ++ [y])) :
    x.head? = some mark ∧ y.getLast? = some mark := by
  constructor
  · rw [List.cons_append, pieces, if_neg (by simpa using hmark)] at h
    split at h
    · rw [← (List.cons.inj h).1]
      rfl
    · rw [← (List.cons.inj h).1]
      rfl
  · obtain ⟨ps, p, hps⟩ := exists_pieces_concat (mark :: body)
    have hone : pieces [mark] = [[mark]] := pieces_of_not_mem (by simpa using fun h => hmark h.symm)
    rw [pieces_append hps hone, ← List.cons_append] at h
    have hlast := congrArg List.getLast? h
    rw [List.getLast?_concat, List.getLast?_concat] at hlast
    rw [← Option.some.inj hlast, List.getLast?_concat]

/-- A literal on one line is kept. -/
theorem exists_layLines_one {mark : Char} {p literal body b : List Char} {verbatim : Bool} (hmark : Stays mark)
    (hliteral : literal = mark :: body ++ [mark]) (front back : List Line) :
    ∃ before after, layLines style (withoutCommas style (front ++ ⟨p ++ (literal ++ b), verbatim⟩ :: back)) =
        before ++ literal ++ after ∧
      code before = (front.flatMap fun l => code l.text) ++ code p := by
  have hlast : literal.getLast? = some mark := by rw [hliteral, List.getLast?_concat]
  obtain ⟨front', hfront, _, hcode⟩ := @exists_withoutCommas_append style front
    (⟨p ++ (literal ++ b), verbatim⟩ :: back)
  obtain ⟨text, more, hcons, htext⟩ := @withoutCommas_cons style ⟨p ++ (literal ++ b), verbatim⟩ back
  obtain ⟨b', rfl⟩ : ∃ b', text = p ++ (literal ++ b') := by
    rcases htext with htext | htext
    · exact ⟨b, htext⟩
    · rw [← List.append_assoc] at htext
      obtain ⟨b', hb'⟩ := exists_dropComma (by rw [List.getLast?_append, hlast]; rfl) hmark htext
      exact ⟨b', by rw [hb', List.append_assoc]⟩
  obtain ⟨p', hlay, hp'⟩ := @exists_lay_append style p (literal ++ b') mark verbatim (by rw [hliteral]; rfl) hmark
  obtain ⟨b'', hb''⟩ : ∃ b'', (if verbatim then literal ++ b' else trimEnd (literal ++ b')) = literal ++ b'' := by
    cases verbatim with
    | true => exact ⟨b', rfl⟩
    | false => exact ⟨trimEnd b', trimEnd_append_of_getLast? hlast hmark.1 b'⟩
  rw [hb''] at hlay
  have hblank : allBlank (p ++ (literal ++ b')) = false := by
    refine List.all_eq_false.mpr ⟨mark, ?_, by rw [hmark.1]; exact Bool.false_ne_true⟩
    rw [hliteral]
    simp
  obtain ⟨back', hblock⟩ := @layLines_block style ⟨p ++ (literal ++ b'), verbatim⟩ [] hblank
    (by simp) (by rw [hlay, hliteral]; simp) front' more
  rw [List.nil_append, List.map_nil, unlines, hlay] at hblock
  refine ⟨joined (front'.foldl (layLine style) []) ++ p', b'' ++ '\n' :: back', ?_, ?_⟩
  · rw [hfront, hcons, hblock]
    simp only [List.append_assoc]
  · rw [code_append, code_joined_foldl, hp', hcode]

/-- A literal over several lines is kept but for the end of its first line. -/
theorem exists_layLines_more {mark : Char} {p x y b : List Char} {ys : List (List Char)} {verbatim : Bool}
    (hmark : Stays mark) (hx : x.head? = some mark) (hy : y.getLast? = some mark)
    (htexts : vs.map Line.text = ys ++ [y ++ b]) (hvs : ∀ v ∈ vs, v.verbatim = true) (front back : List Line) :
    ∃ front' p' after, withoutCommas style (front ++ ⟨p ++ x, verbatim⟩ :: (vs ++ back)) =
        front' ++ ⟨p ++ x, verbatim⟩ :: (vs ++ withoutCommas style back) ∧ front'.length = front.length ∧
      lay style ⟨p ++ x, verbatim⟩ = p' ++ (if verbatim then x else trimEnd x) ∧
      layLines style (withoutCommas style (front ++ ⟨p ++ x, verbatim⟩ :: (vs ++ back))) =
        joined (front'.foldl (layLine style) []) ++ p' ++
          unlines ((if verbatim then x else trimEnd x) :: (ys ++ [y])) ++ after ∧
      code (joined (front'.foldl (layLine style) []) ++ p') = (front.flatMap fun l => code l.text) ++ code p := by
  obtain ⟨front', hfront, hlength, hcode⟩ := @exists_withoutCommas_append style front
    (⟨p ++ x, verbatim⟩ :: (vs ++ back))
  have hlast : allBlank (y ++ b) = false := by
    rw [allBlank, List.all_append]
    exact Bool.and_eq_false_imp.mpr fun h => absurd h (by rw [← allBlank, allBlank_of_getLast? hy hmark.1]; decide)
  have hcode' : ∃ v ∈ vs, allBlank v.text = false := by
    obtain ⟨v, hv, hv'⟩ := List.mem_map.mp (by rw [htexts]; simp : y ++ b ∈ vs.map Line.text)
    exact ⟨v, hv, by rw [hv']; exact hlast⟩
  have hblank : allBlank (p ++ x) = false := by
    refine List.all_eq_false.mpr ⟨mark, List.mem_append_right _ (List.mem_of_mem_head? hx), ?_⟩
    rw [hmark.1]
    exact Bool.false_ne_true
  obtain ⟨p', hlay, hp'⟩ := @exists_lay_append style p x mark verbatim hx hmark
  have hend : (lay style ⟨p ++ x, verbatim⟩ :: vs.map Line.text).getLast? ≠ some [] := by
    rw [htexts, ← List.cons_append, List.getLast?_concat]
    intro hnil
    rw [Option.some.inj hnil] at hlast
    cases hlast
  -- No line of the block is dropped: the last one holds the closing mark.
  obtain ⟨back', hblock⟩ := @layLines_block style ⟨p ++ x, verbatim⟩ vs hblank hvs hend front'
    (withoutCommas style back)
  rw [withoutCommas_verbatim hvs hcode'] at hfront
  refine ⟨front', p', b ++ '\n' :: back', hfront, hlength, hlay, ?_, ?_⟩
  · have hjoin := unlines_end (lay style ⟨p ++ x, verbatim⟩ :: ys) y b []
    rw [List.cons_append, List.cons_append, hlay, ← append_unlines, ← append_unlines] at hjoin
    rw [hfront, hblock, htexts, hlay, ← append_unlines, hjoin]
    simp only [unlines, List.append_assoc]
  · rw [code_append, code_joined_foldl, hp', hcode]

/-- How a literal stands on the lines of a text: on one of them, behind `p` and before `b`, or on several, of which
those below the first one start inside it. -/
inductive Stands (p literal b : List Char) (l : Line) (vs : List Line) : Prop
  | one (hone : '\n' ∉ literal) (hl : l.text = p ++ (literal ++ b)) (hvs : vs = [])
  | more {x y : List Char} {ys : List (List Char)} (hpieces : pieces literal = x :: (ys ++ [y]))
      (hl : l.text = p ++ x) (hvs : vs.map Line.text = ys ++ [y ++ b]) (hverbatim : ∀ v ∈ vs, v.verbatim = true)

/-- Wherever a literal stands, it is kept but for the end of its first line. -/
theorem Stands.exists_layLines {mark : Char} {p literal body b : List Char} (h : Stands p literal b l vs)
    (hmark : Stays mark) (hliteral : literal = mark :: body ++ [mark]) (front back : List Line) :
    ∃ before after, layLines style (withoutCommas style (front ++ l :: (vs ++ back))) =
        before ++ (if l.verbatim then literal else trimFirst literal) ++ after ∧
      code before = (front.flatMap fun l => code l.text) ++ code p := by
  obtain ⟨text, verbatim⟩ := l
  cases h with
  | one hone hl hvs =>
      obtain rfl : text = p ++ (literal ++ b) := hl
      rw [hvs, List.nil_append, trimFirst_of_not_mem hone, ite_self]
      exact exists_layLines_one hmark hliteral front back
  | @more x y ys hpieces hl hvs hverbatim =>
      obtain rfl : text = p ++ x := hl
      obtain ⟨hx, hy⟩ := enclosed_pieces hmark.ne_feed (by rw [← hliteral]; exact hpieces)
      obtain ⟨front', p', after, _, _, _, hlaid, hcode⟩ := @exists_layLines_more style vs mark p x y b ys verbatim
        hmark hx hy hvs hverbatim front back
      refine ⟨joined (front'.foldl (layLine style) []) ++ p', after, ?_, hcode⟩
      rw [hlaid, ite_trimFirst hpieces (by simp)]

/-- A literal as the layout writes it: its strings are requoted, and its first line is trimmed unless that line starts
in a literal. -/
def laidLiteral (style : Style) (literals : Literals) (text : List Char) (t : Span) : List Char :=
  let literal := requoteLine style ((text.drop t.start).take (t.stop - t.start)) t.start (literals.inside t)
  if literals.isVerbatimLine (lastStart (text.take t.start)) then literal else trimFirst literal

theorem stays_mark {mark : Char} (h : IsQuote mark ∨ mark = '\x60') : Stays mark := by
  rcases h with (rfl | rfl) | rfl
  · exact ⟨rfl, by decide⟩
  · exact ⟨rfl, by decide⟩
  · exact ⟨rfl, by decide⟩

theorem Literals.isVerbatimLine_of_mem {k : Nat} (ht : t ∈ literals.verbatim) (hstart : t.start < k)
    (hstop : k < t.stop) : literals.isVerbatimLine k = true := by
  refine List.any_eq_true.mpr ⟨t, ht, ?_⟩
  rw [Bool.and_eq_true, decide_eq_true_eq, decide_eq_true_eq]
  exact ⟨hstart, hstop⟩

/-- Requoting leaves a literal on as many lines as it has. -/
theorem Literals.Placed.length_pieces {front literal back : List Char}
    (h : literals.Placed (front ++ (literal ++ back)))
    (ht : t = ⟨front.length, front.length + literal.length⟩) :
    (pieces (requoteLine style front 0 (literals.before t))).length = (pieces front).length ∧
      (pieces (requoteLine style literal front.length (literals.inside t))).length = (pieces literal).length := by
  have hbefore : ∀ s ∈ literals.before t, s.start < s.stop ∧ s.stop ≤ front.length ∧ Quoted front s := by
    intro s hs
    obtain ⟨hs, hstop⟩ := mem_before.mp hs
    rw [ht] at hstop
    exact ⟨(h.quoted s hs).lt.1, hstop, (h.quoted s hs).of_append hstop⟩
  have hinside : ∀ s ∈ literals.inside t, front.length < s.start ∧ s.start < s.stop ∧
      s.stop < front.length + literal.length ∧ Quoted (front ++ literal) s := by
    intro s hs
    obtain ⟨hs, hstart, hstop⟩ := mem_inside.mp hs
    rw [ht] at hstart hstop
    have hquoted := h.quoted s hs
    rw [← List.append_assoc] at hquoted
    exact ⟨hstart, hquoted.lt.1, hstop, hquoted.of_append (by rw [List.length_append]; exact hstop.le)⟩
  have hfront := @length_pieces_requoteLine style front _ (fun s hs => (hbefore s hs).2.2) (h.apart_before t)
  refine ⟨hfront, ?_⟩
  have happart : Apart (literals.before t ++ literals.inside t) := by
    refine List.pairwise_append.mpr ⟨h.apart_before t, h.apart_inside t, fun a ha b hb => ?_⟩
    have ha' := hbefore a ha
    have hb' := hinside b hb
    omega
  -- The front keeps its lines, and so does the front with the literal: what is left are the lines of the literal.
  have hboth := @length_pieces_requoteLine style (front ++ literal) _ (fun s hs => by
    rcases List.mem_append.mp hs with hs | hs
    · obtain ⟨_, _, f, q, c, r, hf, hq⟩ := hbefore s hs
      exact ⟨f, q, c, r ++ literal, by rw [hf]; simp, hq⟩
    · exact (hinside s hs).2.2.2) happart
  rw [requoteLine_append (h.apart_before t) (fun s hs => by
    have hs' := hbefore s hs
    omega) (fun s hs => by
    have hs' := hinside s hs
    omega), Nat.zero_add] at hboth
  obtain ⟨ps, p, hps⟩ := exists_pieces_concat (requoteLine style front 0 (literals.before t))
  obtain ⟨qs, q, hqs⟩ := exists_pieces_concat front
  obtain ⟨x, xs, hxs⟩ := exists_pieces_cons (requoteLine style literal front.length (literals.inside t))
  obtain ⟨y, ys, hys⟩ := exists_pieces_cons literal
  rw [pieces_append hps hxs, pieces_append hqs hys] at hboth
  rw [hps, hqs] at hfront
  rw [hxs, hys]
  simp only [List.length_append, List.length_cons, List.length_nil] at hboth hfront ⊢
  omega

/-- A literal of a module stands on the lines that are laid out. -/
theorem Literals.Placed.exists_stands {front literal back body : List Char} {mark : Char} (hmark : mark ≠ '\n')
    (hliteral : literal = mark :: body ++ [mark]) (h : literals.Placed (front ++ (literal ++ back)))
    (ht : ⟨front.length, front.length + literal.length⟩ ∈ literals.verbatim) :
    ∃ above l vs below p b, requoteLines style literals (pieces (front ++ (literal ++ back))) 0 literals.strings =
        above ++ l :: (vs ++ below) ∧
      l.verbatim = literals.isVerbatimLine (lastStart front) ∧ above.length + 1 = (pieces front).length ∧
      vs.length + 1 = (pieces literal).length ∧
      Stands p (requoteLine style literal front.length
        (literals.inside ⟨front.length, front.length + literal.length⟩)) b l vs ∧
      (above.flatMap fun l => code l.text) ++ code p = code (requoteLine style front 0
        (literals.before ⟨front.length, front.length + literal.length⟩)) := by
  obtain ⟨hfront, hlines⟩ := @Literals.Placed.length_pieces style literals _ front literal back h rfl
  have htexts := @map_text_requoteLines style literals (front ++ (literal ++ back)) _ h.quoted h.apart
  have hflags := @map_verbatim_requoteLines style literals (pieces (front ++ (literal ++ back))) 0 literals.strings
  rw [h.requoted_eq ht] at htexts
  generalize requoteLine style literal front.length
    (literals.inside ⟨front.length, front.length + literal.length⟩) = kept at htexts hlines ⊢
  generalize requoteLine style front 0
    (literals.before ⟨front.length, front.length + literal.length⟩) = ahead at htexts hfront ⊢
  generalize requoteLine style back (front.length + literal.length)
    (literals.behind ⟨front.length, front.length + literal.length⟩) = rest at htexts
  obtain ⟨ps, p, hahead⟩ := exists_pieces_concat ahead
  obtain ⟨b, bs, hrest⟩ := exists_pieces_cons rest
  obtain ⟨c, cs, hback⟩ := exists_pieces_cons back
  have hcode : ps.flatMap code ++ code p = code ahead := by
    rw [← unlines_pieces ahead, hahead, code_unlines]
    simp
  obtain ⟨xs, y, hkept⟩ := exists_pieces_concat kept
  obtain ⟨xs₀, y₀, hends⟩ := exists_pieces_concat literal
  have hbelow := pieces_append hkept hrest
  have hbelow₀ := pieces_append hends hback
  rw [hkept, hends] at hlines
  simp only [List.length_append, List.length_cons, List.length_nil] at hlines
  have habove' : ∀ {above : List Line}, above.map Line.text = ps → above.length + 1 = (pieces front).length := by
    intro above habove
    rw [← hfront, hahead, List.length_append, ← habove, List.length_map, List.length_singleton]
  match xs, xs₀ with
  | [], xs₀ =>
      obtain ⟨z, zs, hbehind⟩ := exists_pieces_cons (literal ++ back)
      obtain ⟨above, l, below, hls, habove, htext, _, hflag, _⟩ :=
        exists_line htexts hflags hfront hahead hbelow hbehind
      have hwhole : y = kept := by rw [← unlines_pieces kept, hkept, List.nil_append, unlines]
      rw [hwhole] at hkept htext
      refine ⟨above, l, [], below, p, b, hls, hflag, habove' habove, ?_,
        .one ((not_mem_feed_iff hkept).mpr rfl) htext rfl, ?_⟩
      · rw [hends, List.length_append]
        exact hlines
      · rw [← hcode, ← habove, List.flatMap_map]
  | x :: ys, [] => cases hlines
  | x :: ys, x₀ :: ys₀ =>
      rw [List.cons_append] at hbelow hbelow₀
      obtain ⟨above, l, lower, hls, habove, htext, hlower, hflag, hflags'⟩ :=
        exists_line htexts hflags hfront hahead hbelow hbelow₀
      rw [List.append_cons ys] at hlower
      obtain ⟨vs, below, rfl, hvs, _⟩ := List.map_eq_append_iff.mp hlower
      have hlength := congrArg List.length hvs
      rw [List.length_map, List.length_append, List.length_singleton] at hlength
      rw [List.length_cons, List.length_cons] at hlines
      -- The lines below the first one start behind the first mark and not behind the last one.
      have hextent := extent_pieces literal
      rw [hends, List.cons_append, extent_cons, extent_append, extent_cons, extent] at hextent
      have hpos : 0 < y₀.length := by
        have hlast := (enclosed_pieces hmark (by rw [← hliteral]; exact hends)).2
        exact List.length_pos_of_mem (List.mem_of_getLast? hlast)
      have hverbatim := verbatim_of_map hflags' (by omega) fun k hfrom hto =>
        Literals.isVerbatimLine_of_mem ht (by dsimp only; omega) (by dsimp only; omega)
      refine ⟨above, l, vs, below, p, b, hls, hflag, habove' habove, ?_, .more hkept htext hvs hverbatim, ?_⟩
      · rw [hends, List.length_append, List.length_cons, List.length_singleton]
        omega
      · rw [← hcode, ← habove, List.flatMap_map]

/-- The layout keeps each template and each string over several lines, with the strings in it requoted, but for blanks
at the end of its first line. -/
theorem layText_keeps_literal (h : literals.Placed text) (ht : t ∈ literals.verbatim) :
    ∃ before after, layText style literals text = before ++ laidLiteral style literals text t ++ after ∧
      code before = code (requoteLine style (text.take t.start) 0 (literals.before t)) := by
  obtain ⟨front, mark, body, back, rfl, hmark, hspan⟩ := h.enclosed t ht
  have hslice := slice_literal front body back mark
  have hlength : body.length + 2 = (mark :: body ++ [mark]).length := by simp
  rw [hlength] at hspan hslice
  subst hspan
  obtain ⟨above, l, vs, below, p, b, hls, hflag, _, _, hstands, hcode⟩ := @Literals.Placed.exists_stands style _ _ _ _ _ _
    (stays_mark hmark).ne_feed rfl h ht
  obtain ⟨before, after, hlaid, hbefore⟩ := @Stands.exists_layLines style _ _ _ _ _ _ _ hstands (stays_mark hmark)
    (h.requoteLine_inside rfl) above below
  refine ⟨before, after, ?_, ?_⟩
  · unfold laidLiteral layText
    dsimp only
    rw [hls, List.take_left, hslice, ← hflag]
    exact hlaid
  · rw [List.take_left, hbefore, hcode]

/-- In every module that is accepted, a template keeps its text in its place, whatever the style: the strings in its
code are requoted, and blanks at the end of its first line are dropped unless that line starts in a literal. -/
theorem format_keeps_literal {path : List Char} {items : List Tree}
    (h : Module.parse? (featuresOf path) text = some items) (ht : t ∈ (Literals.ofModule text items).verbatim) :
    ∃ before after, format style text path =
        .ok (before ++ laidLiteral style (Literals.ofModule text items) text t ++ after) ∧
      code before = code (requoteLine style (text.take t.start) 0 ((Literals.ofModule text items).before t)) := by
  obtain ⟨before, after, hlaid, hcode⟩ := @layText_keeps_literal style _ _ _ (placed_ofModule h) ht
  refine ⟨before, after, ?_, hcode⟩
  unfold format
  rw [h]
  exact congrArg Except.ok hlaid

/-- A module whose strings lie on one line and come in order, with its literals. -/
theorem exists_ofModule_eq {features : Features} {ss ts : List Span}
    (hread : (Module.parse? features text).map (fun items => (Tree.stringsOf items, Tree.templatesOf items)) =
      some (ss, ts)) (hone : ∀ s ∈ ss, Literals.isBroken text s = false) (hsorted : Sorted ss) :
    ∃ items, Module.parse? features text = some items ∧ Literals.ofModule text items = ⟨ss, ts⟩ := by
  obtain ⟨items, hitems, hboth⟩ := Option.map_eq_some_iff.mp hread
  obtain ⟨hstrings, htemplates⟩ := Prod.mk.inj hboth
  have hkept : (ss.filter fun s => !Literals.isBroken text s) = ss :=
    List.filter_eq_self.mpr fun s hs => by rw [hone s hs]; rfl
  have hnone : ss.filter (Literals.isBroken text) = [] :=
    List.filter_eq_nil_iff.mpr fun s hs => by rw [hone s hs]; exact Bool.false_ne_true
  refine ⟨items, hitems, ?_⟩
  unfold Literals.ofModule
  dsimp only
  rw [hstrings, htemplates, hkept, hnone, List.nil_append, List.mergeSort_of_pairwise]
  exact hsorted.imp fun h => decide_eq_true h

theorem format_of_literals {path laid : List Char} {items : List Tree}
    (hitems : Module.parse? (featuresOf path) text = some items) (hliterals : Literals.ofModule text items = literals)
    (hlaid : layText style literals text = laid) : format style text path = .ok laid := by
  unfold format
  rw [hitems]
  dsimp only
  rw [hliterals, hlaid]

/-- A template with a string in its code, an empty line and blanks at the end of a line. -/
def greetingText : List Char :=
  "const s = [`a $\x7bf(\"b\")\x7d\n\n  c,  \n`];\n".toList

theorem format_keeps_literal_greeting : ∃ before after,
    format {} greetingText "a.js".toList =
      .ok (before ++ "`a $\x7bf('b')\x7d\n\n  c,  \n`".toList ++ after) ∧ code before = "consts=[".toList := by
  obtain ⟨items, hitems, hliterals⟩ := @exists_ofModule_eq greetingText (featuresOf "a.js".toList) [⟨18, 21⟩] [⟨11, 33⟩]
    (by decide +kernel) (by decide +kernel) (List.pairwise_singleton _ _)
  have hkept := @format_keeps_literal {} greetingText ⟨11, 33⟩ "a.js".toList items hitems
    (by rw [hliterals]; exact List.mem_singleton_self _)
  rw [hliterals] at hkept
  obtain ⟨before, after, hformat, hcode⟩ := hkept
  exact ⟨before, after, hformat, hcode⟩

/-- A template that ends its first line with blanks. -/
def blankText : List Char :=
  "const s = `a  \nb`;\n".toList

/-- The blanks at the end of the first line of a template are dropped. -/
theorem format_trims_template :
    format {} blankText "a.js".toList = .ok "const s = `a\nb`;\n".toList ∧
      ¬"`a  \nb`".toList <:+: "const s = `a\nb`;\n".toList := by
  obtain ⟨items, hitems, hliterals⟩ := @exists_ofModule_eq blankText (featuresOf "a.js".toList) [] [⟨10, 17⟩]
    (by decide +kernel) (List.forall_mem_nil _) List.Pairwise.nil
  exact ⟨format_of_literals hitems hliterals (by decide), by decide⟩

end Layout
end StoryDocs
