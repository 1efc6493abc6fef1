import StoryDocs.Proofs.Layout.Settled
import StoryDocs.Proofs.Layout.Verbatim

/-!
# Lines of a text that was laid out

A text that was laid out is read again with the lines that were written.  Those that were kept as they are, because
they start in a literal, start in a literal again, if every template is read where the layout left it.  In a steady
style such lines are written as they are.
-/

namespace StoryDocs
namespace Layout

open Text Script

variable {style : Style} {literals literals' : Literals} {text t : List Char} {ls ls' : List Line}

/-! ## Lines of the written text -/

theorem length_joined (written : List (List Char)) : (joined written).length = extent written.reverse := by
  induction written with
  | nil => rfl
  | cons l written ih =>
      rw [joined_cons, List.length_append, ih, List.reverse_cons, extent_append, List.length_append,
        List.length_singleton, extent_cons, extent]

/-- Where a line starts that stands below another one in a literal. -/
theorem length_joined_block {l : Line} {vs : List Line} (hcode : allBlank l.text = false)
    (hvs : ∀ v ∈ vs, v.verbatim = true) (ls : List Line) :
    (joined ((ls ++ l :: vs).foldl (layLine style) [])).length =
      (joined (ls.foldl (layLine style) [])).length + (lay style l).length + 1 + extent (vs.map Line.text) := by
  rw [List.foldl_append, List.foldl_cons, layLine_of_code hcode, foldl_layLine_verbatim hvs, joined_append,
    joined_cons, List.length_append, length_joined (List.reverse _), List.reverse_reverse]
  simp only [List.length_append, List.length_singleton]
  omega

theorem pieces_joined {written : List (List Char)} (h : ∀ w ∈ written, '\n' ∉ w) :
    pieces (joined written) = written.reverse ++ [[]] := by
  induction written with
  | nil => rfl
  | cons l written ih =>
      obtain ⟨hl, hrest⟩ := List.forall_mem_cons.mp h
      have hline : pieces (l ++ ['\n']) = l :: [[]] := by
        rw [pieces_append_feed, pieces_of_not_mem hl]
        rfl
      rw [joined_cons, pieces_append (ih hrest) hline, List.reverse_cons, List.append_assoc]
      rfl

/-- A place in front of a character that stays is known from the characters before it that stay. -/
theorem eq_of_code {u u' v v' : List Char} {c c' : Char} (h : u ++ c :: v = u' ++ c' :: v') (hc : Stays c)
    (hc' : Stays c') (hcode : code u = code u') : u = u' := by
  have hne : ∀ (d : Char) (beyond : List Char), Stays d → code (d :: beyond) ≠ [] := by
    intro d beyond hd
    have hhead : code [d] = [d] := by simp [code, visible, hd.1, hd.2]
    rw [← List.singleton_append, code_append, hhead]
    exact List.cons_ne_nil _ _
  rcases List.append_eq_append_iff.mp h with ⟨beyond, hover, hrest⟩ | ⟨beyond, hover, hrest⟩
  · cases beyond with
    | nil => rw [hover, List.append_nil]
    | cons d beyond =>
        obtain ⟨rfl, _⟩ := List.cons.inj hrest
        rw [hover, code_append, ← List.append_nil (code u), List.append_assoc, List.append_cancel_left_eq] at hcode
        exact absurd hcode.symm (hne _ _ hc)
  · cases beyond with
    | nil => rw [hover, List.append_nil]
    | cons d beyond =>
        obtain ⟨rfl, _⟩ := List.cons.inj hrest
        rw [hover, code_append, ← List.append_nil (code u'), List.append_assoc, List.append_cancel_left_eq] at hcode
        exact absurd hcode (hne _ _ hc')

/-- The literals of a text that was laid out, as those of the text that it was laid out from: its strings are requoted
strings, and every template stands where it was laid. -/
structure Reread (style : Style) (text : List Char) (literals : Literals) (t : List Char) (literals' : Literals) :
    Prop where
  strings : ∀ s' ∈ literals'.strings, ∃ s ∈ literals.strings, slice t s' = (replacement style text s).text
  verbatim : ∀ v ∈ literals.verbatim, ∃ v' ∈ literals'.verbatim,
    code (t.take v'.start) = code (requoteLine style (text.take v.start) 0 (literals.before v)) ∧
      slice t v' = laidLiteral style literals text v

/-- A template is read again where it was laid. -/
theorem Reread.mem_verbatim {v : Span} {before after : List Char} (hplaced : literals'.Placed t)
    (hread : Reread style text literals t literals') (hv : v ∈ literals.verbatim)
    (ht : t = before ++ laidLiteral style literals text v ++ after)
    (hcode : code before = code (requoteLine style (text.take v.start) 0 (literals.before v))) :
    ⟨before.length, before.length + (laidLiteral style literals text v).length⟩ ∈ literals'.verbatim := by
  obtain ⟨v', hv', hcode', hslice⟩ := hread.verbatim v hv
  obtain ⟨front, mark', body, rest, hfront, hmark', rfl⟩ := hplaced.enclosed v' hv'
  rw [← hslice] at ht ⊢
  have hliteral : slice t ⟨front.length, front.length + (body.length + 2)⟩ = mark' :: body ++ [mark'] := by
    rw [hfront]
    exact slice_literal front body rest mark'
  rw [hliteral] at ht ⊢
  have hplace : front = before := by
    have hboth := hfront.symm.trans ht
    rw [List.append_assoc before, List.cons_append, List.cons_append] at hboth
    rw [hfront, List.take_left, ← hcode] at hcode'
    exact eq_of_code hboth (stays_mark hmark') (stays_mark hmark') hcode'
  have hlength : body.length + 2 = (mark' :: body ++ [mark']).length := by simp
  rw [← hplace, ← hlength]
  exact hv'

theorem length_unlines {ls : List (List Char)} (h : ls ≠ []) : (unlines ls).length + 1 = extent ls := by
  induction ls with
  | nil => exact absurd rfl h
  | cons l ls ih =>
      cases ls with
      | nil => rfl
      | cons m ls =>
          have hrest := ih (List.cons_ne_nil m ls)
          rw [unlines_cons (List.cons_ne_nil m ls), List.length_append, List.length_cons, extent_cons, ← hrest]
          omega

theorem length_pieces_append (u v : List Char) :
    (pieces (u ++ v)).length + 1 = (pieces u).length + (pieces v).length := by
  obtain ⟨ps, p, hps⟩ := exists_pieces_concat u
  obtain ⟨x, xs, hxs⟩ := exists_pieces_cons v
  rw [pieces_append hps hxs, hps, hxs]
  simp only [List.length_append, List.length_cons, List.length_nil]
  omega

/-- A line that starts in a literal is one of those below the line on which the literal starts. -/
theorem lineStarts_inside {front literal back : List Char} {ps qs : List (List Char)} {q : List Char}
    (h : pieces (front ++ (literal ++ back)) = ps ++ q :: qs) (hstart : front.length < extent ps)
    (hstop : extent ps < front.length + literal.length) :
    (pieces front).length ≤ ps.length ∧ ps.length + 2 ≤ (pieces front).length + (pieces literal).length := by
  have hne : ps ≠ [] := by
    rintro rfl
    cases hstart
  have hfeeds : ∀ p ∈ ps, '\n' ∉ p := fun p hp => not_mem_of_mem_pieces (by rw [h]; exact List.mem_append_left _ hp)
  have htext : front ++ (literal ++ back) = unlines ps ++ ['\n'] ++ unlines (q :: qs) := by
    have hjoin := unlines_pieces (front ++ (literal ++ back))
    have hend := unlines_end ps [] q qs
    rw [List.nil_append] at hend
    rw [← hjoin, h, hend, unlines_concat hne]
  have hlength : (unlines ps ++ ['\n']).length = extent ps := by
    rw [List.length_append, List.length_singleton, length_unlines hne]
  have hpieces : (pieces (unlines ps ++ ['\n'])).length = ps.length + 1 := by
    rw [pieces_append_feed, pieces_unlines hne hfeeds, List.length_append]
    rfl
  constructor
  -- The lines above reach behind the front: a line feed behind it ends the last of them.
  · obtain ⟨z, hz⟩ : ∃ z, unlines ps ++ ['\n'] = front ++ z := by
      rcases List.append_eq_append_iff.mp htext with ⟨z, hz, _⟩ | ⟨z, hz, _⟩
      · exact ⟨z, hz⟩
      · have hlong := congrArg List.length hz
        rw [List.length_append, hlength] at hlong
        omega
    have hfeed : '\n' ∈ z := by
      have hlast := congrArg List.getLast? hz
      have hne' : z ≠ [] := by
        rintro rfl
        rw [List.append_nil] at hz
        rw [← hz, hlength] at hstart
        omega
      rw [List.getLast?_concat, List.getLast?_append_of_ne_nil _ hne'] at hlast
      exact List.mem_of_getLast? hlast.symm
    obtain ⟨x, ms, y, hends⟩ := exists_pieces_ends hfeed
    have hsum := length_pieces_append front z
    rw [← hz, hpieces, hends] at hsum
    simp only [List.length_append, List.length_cons, List.length_nil] at hsum
    omega
  -- They end inside the literal, of which at least one line is left.
  · obtain ⟨z, hz⟩ : ∃ z, front ++ literal = unlines ps ++ ['\n'] ++ z := by
      rw [← List.append_assoc] at htext
      rcases List.append_eq_append_iff.mp htext with ⟨z, hz, _⟩ | ⟨z, hz, _⟩
      · have hlong := congrArg List.length hz
        rw [hlength, List.length_append, List.length_append] at hlong
        omega
      · exact ⟨z, hz⟩
    have hsum := length_pieces_append (unlines ps ++ ['\n']) z
    have hsum' := length_pieces_append front literal
    have hpos := List.length_pos_of_ne_nil (pieces_ne_nil z)
    rw [← hz, hpieces] at hsum
    omega

theorem map_verbatim_withoutCommas (style : Style) (ls : List Line) :
    (withoutCommas style ls).map Line.verbatim = ls.map Line.verbatim := by
  unfold withoutCommas
  split
  · induction ls with
    | nil => rfl
    | cons l ls ih =>
        rw [dropCommas, List.map_cons, ih, List.map_cons]
        congr 1
        split
        · split
          · rfl
          · rfl
        · rfl
  · rfl

/-- A line that starts in a literal has that literal around its start in the text. -/
theorem exists_literal_of_verbatim {above below : List Line} {l : Line}
    (h : withoutCommas style (requoteLines style literals (pieces text) 0 literals.strings) = above ++ l :: below)
    (hl : l.verbatim = true) : ∃ ps q qs v, pieces text = ps ++ q :: qs ∧ ps.length = above.length ∧
      v ∈ literals.verbatim ∧ v.start < extent ps ∧ extent ps < v.stop := by
  have hflags := congrArg (List.map Line.verbatim) h
  rw [map_verbatim_withoutCommas, map_verbatim_requoteLines, List.map_append, List.map_cons, hl] at hflags
  have hlength := congrArg List.length hflags
  simp only [List.length_map, length_lineStarts, List.length_append, List.length_cons] at hlength
  obtain ⟨ps, rest, hpieces, hps⟩ : ∃ ps rest, pieces text = ps ++ rest ∧ ps.length = above.length :=
    ⟨(pieces text).take above.length, (pieces text).drop above.length, (List.take_append_drop _ _).symm,
      by rw [List.length_take]; omega⟩
  obtain ⟨q, qs, rfl⟩ : ∃ q qs, rest = q :: qs := by
    refine List.exists_cons_of_ne_nil ?_
    rintro rfl
    rw [hpieces, List.append_nil, hps] at hlength
    omega
  rw [hpieces, lineStarts_append, List.map_append, lineStarts, List.map_cons, Nat.zero_add] at hflags
  obtain ⟨_, hrest⟩ := List.append_inj hflags (by rw [List.length_map, length_lineStarts, List.length_map, hps])
  obtain ⟨hflag, _⟩ := List.cons.inj hrest
  obtain ⟨v, hv, hrange⟩ := List.any_eq_true.mp hflag
  rw [Bool.and_eq_true, decide_eq_true_eq, decide_eq_true_eq] at hrange
  exact ⟨ps, q, qs, v, hpieces, hps, hv, hrange.1, hrange.2⟩

/-- A line that lies behind `m` and not behind `vs`. -/
theorem exists_split_lines {upper vs lower above below : List Line} {m l : Line}
    (h : upper ++ m :: (vs ++ lower) = above ++ l :: below) (hfrom : upper.length < above.length)
    (hto : above.length ≤ upper.length + vs.length) :
    ∃ vs₁ vs₂, above = upper ++ m :: vs₁ ∧ vs = vs₁ ++ l :: vs₂ := by
  rcases List.append_eq_append_iff.mp h with ⟨beyond, hover, hrest⟩ | ⟨beyond, hover, _⟩
  · cases beyond with
    | nil =>
        rw [hover, List.append_nil] at hfrom
        omega
    | cons d vs₁ =>
        obtain ⟨rfl, hbehind⟩ := List.cons.inj hrest
        rw [hover, List.length_append, List.length_cons] at hto
        refine ⟨vs₁, ?_⟩
        rcases List.append_eq_append_iff.mp hbehind with ⟨z, hz, _⟩ | ⟨z, hz, hback⟩
        · have hlength := congrArg List.length hz
          rw [List.length_append] at hlength
          omega
        · cases z with
          | nil =>
              rw [hz, List.append_nil] at hto
              omega
          | cons e z =>
              obtain ⟨rfl, _⟩ := List.cons.inj hback
              exact ⟨z, hover, hz⟩
  · have hlength := congrArg List.length hover
    rw [List.length_append] at hlength
    omega

/-- How long the lines are that end inside a literal. -/
theorem extent_le_of_split {y : List Char} {ys us : List (List Char)} {z : List Char} {zs : List (List Char)}
    (h : ys ++ [y] = us ++ z :: zs) : extent us ≤ extent ys := by
  rcases List.append_eq_append_iff.mp h with ⟨beyond, hover, hrest⟩ | ⟨beyond, hover, _⟩
  · cases beyond with
    | nil => rw [hover, List.append_nil]
    | cons d beyond => simp at hrest
  · rw [hover, extent_append]
    exact Nat.le_add_right _ _

/-- A line that is kept because it starts in a literal starts in a literal of the written text again. -/
theorem Reread.isVerbatimLine {above below : List Line} {l : Line} (hplaced : literals.Placed text)
    (hplaced' : literals'.Placed (layText style literals text))
    (hread : Reread style text literals (layText style literals text) literals')
    (h : withoutCommas style (requoteLines style literals (pieces text) 0 literals.strings) = above ++ l :: below)
    (hl : l.verbatim = true) :
    literals'.isVerbatimLine (joined (above.foldl (layLine style) [])).length = true := by
  obtain ⟨ps, q, qs, v, hpieces, hps, hv, hstart, hstop⟩ := exists_literal_of_verbatim h hl
  obtain ⟨front, mark, body, back, rfl, hmark, hspan⟩ := hplaced.enclosed v hv
  have hbody : body.length + 2 = (mark :: body ++ [mark]).length := by simp
  rw [hbody] at hspan
  subst hspan
  obtain ⟨hfrom, hto⟩ := lineStarts_inside hpieces hstart hstop
  obtain ⟨upper, m, vs, lower, p, b, hls, hflag, hupper, hvs, hstands, hcode⟩ :=
    @Literals.Placed.exists_stands style _ _ _ _ _ _ (stays_mark hmark).ne_feed rfl hplaced hv
  -- A literal on one line has no line below it that would start in it.
  cases hstands with
  | one hone hm hnone =>
      rw [hnone, List.length_nil] at hvs
      omega
  | @more x y ys hkept hm htexts hverbatim =>
      obtain ⟨text', verbatim⟩ := m
      obtain rfl : text' = p ++ x := hm
      obtain ⟨hx, hy⟩ := enclosed_pieces (stays_mark hmark).ne_feed (by
        rw [← hplaced.requoteLine_inside rfl]
        exact hkept)
      obtain ⟨upper', p', after, hwithout, hupper', hlay, hlaid, hbefore⟩ := @exists_layLines_more style vs mark p x y b
        ys verbatim (stays_mark hmark) hx hy htexts hverbatim upper lower
      rw [hls, hwithout] at h
      obtain ⟨vs₁, vs₂, rfl, hsplit⟩ := exists_split_lines h (by omega) (by omega)
      have hliteral : laidLiteral style literals (front ++ (mark :: body ++ [mark] ++ back))
          ⟨front.length, front.length + (mark :: body ++ [mark]).length⟩ =
            unlines ((if verbatim then x else trimEnd x) :: (ys ++ [y])) := by
        have hslice := slice_literal front body back mark
        rw [hbody] at hslice
        unfold laidLiteral
        dsimp only at hflag ⊢
        rw [hslice, List.take_left, ← hflag, ite_trimFirst hkept (by simp)]
      rw [← hls] at hlaid
      -- The literal is read again where it was laid, and the lines of it above this one are shorter than all of it.
      have hagain := hread.mem_verbatim hplaced' hv (by rw [hliteral]; exact hlaid)
        (by rw [hbefore, hcode, List.take_left])
      rw [hliteral] at hagain
      have hblank : allBlank (p ++ x) = false := by
        refine List.all_eq_false.mpr ⟨mark, List.mem_append_right _ (List.mem_of_mem_head? hx), ?_⟩
        rw [(stays_mark hmark).1]
        exact Bool.false_ne_true
      have hvs₁ : ∀ v ∈ vs₁, v.verbatim = true := fun v hv =>
        hverbatim v (by rw [hsplit]; exact List.mem_append_left _ hv)
      have hshort : extent (vs₁.map Line.text) ≤ extent ys := by
        rw [hsplit, List.map_append, List.map_cons] at htexts
        exact extent_le_of_split htexts.symm
      have hpos := List.length_pos_of_mem (List.mem_of_getLast? hy)
      have hlength := length_unlines (List.cons_ne_nil (if verbatim then x else trimEnd x) (ys ++ [y]))
      rw [extent_cons, extent_append, extent_cons, extent] at hlength
      rw [length_joined_block hblank hvs₁, hlay, List.length_append]
      refine Literals.isVerbatimLine_of_mem hagain ?_ ?_
      · rw [List.length_append]
        dsimp only
        omega
      · rw [List.length_append]
        dsimp only
        omega

end Layout
end StoryDocs
