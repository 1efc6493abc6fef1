import StoryDocs.Proofs.Markup.Measures
import StoryDocs.Proofs.Markup.Prose

/-!
# The end of a group

A group whose last brace stands behind a line feed keeps its end there when what stands between the two is
exchanged, as long as nothing in between means anything to a scanner.
-/

namespace StoryDocs
namespace Markup

open Text Bytes

variable {c before quote : Char} {s u w w' : List Char} {k l l' n depth : Nat} {o o' : Option Nat}

/-- What can stand in front of a brace without a meaning for the scanners. -/
def isDull (c : Char) : Bool :=
  !(['\x22', '\x27', '\x60', '/', '\\', '$', '\x7b', '\x7d'].contains c)

theorem ne_of_isDull {d : Char} (hc : isDull c = true) (hd : isDull d = false) : c ≠ d := by
  rintro rfl
  rw [hc] at hd
  cases hd

/-- A text that closes one brace and does nothing else. -/
def ClosesBrace (s : List Char) : Prop :=
  ∃ dull, s = dull ++ ['\x7d'] ∧ ∀ c ∈ dull, isDull c = true

namespace ClosesBrace

theorem induct {motive : List Char → Prop} (last : motive ['\x7d'])
    (cons : ∀ c s, isDull c = true → motive s → motive (c :: s)) (h : ClosesBrace s) : motive s := by
  obtain ⟨dull, rfl, hdull⟩ := h
  induction dull with
  | nil => exact last
  | cons c dull ih =>
      obtain ⟨hc, hrest⟩ := List.forall_mem_cons.mp hdull
      exact cons c _ hc (ih hrest)

theorem stringLength?_eq (h : ClosesBrace s) (hquote : quote = '\x22' ∨ quote = '\x27') :
    stringLength? quote s = none := by
  refine h.induct (motive := fun s => stringLength? quote s = none) ?_ fun c s hc ih => ?_
  · rcases hquote with rfl | rfl
    · decide
    · decide
  · have hne : c ≠ quote := by
      rcases hquote with rfl | rfl
      · exact ne_of_isDull hc (by decide)
      · exact ne_of_isDull hc (by decide)
    rw [stringLength?_of_ne (ne_of_isDull hc (by decide)), beq_false_of_ne hne, ih]
    split
    · rfl
    · rfl

theorem templateExtent_eq (h : ClosesBrace s) : templateExtent s = some s.length := by
  refine h.induct (motive := fun s => templateExtent s = some s.length) (by decide) fun c s hc ih => ?_
  rw [templateExtent_of_ne (ne_of_isDull hc (by decide)) (ne_of_isDull hc (by decide)), ih]
  · rfl
  · exact fun hhole => ne_of_isDull hc (by decide) hhole.1

theorem braceExtent_eq (h : ClosesBrace s) (depth : Nat) (before : Char) :
    braceExtent depth before s = if depth ≤ 1 then some s.length else none := by
  refine h.induct (motive := fun s => ∀ before, braceExtent depth before s = if depth ≤ 1 then some s.length else none)
    (fun before => ?_) (fun c s hc ih before => ?_) before
  · rw [braceExtent_none (literalExtent_code (by decide)), if_neg (by decide), if_pos rfl]
    rfl
  · have hcode : c ≠ '\x22' ∧ c ≠ '\x27' ∧ c ≠ '\x60' ∧ c ≠ '/' :=
      ⟨ne_of_isDull hc (by decide), ne_of_isDull hc (by decide), ne_of_isDull hc (by decide), ne_of_isDull hc (by decide)⟩
    rw [braceExtent_none (literalExtent_code hcode), if_neg (ne_of_isDull hc (by decide)),
      if_neg (ne_of_isDull hc (by decide)), ih]
    split
    · rfl
    · rfl

theorem slash_notMem (h : ClosesBrace s) : '/' ∉ s := by
  refine h.induct (motive := fun s => '/' ∉ s) (by decide) fun c s hc ih => ?_
  simp [ih, (ne_of_isDull hc (by decide) : c ≠ '/').symm]

end ClosesBrace

/-- A line feed and what closes one brace behind it. -/
structure ClosesBehind (w : List Char) : Prop where
  feed : w.head? = some '\n'
  closes : ClosesBrace w.tail

namespace ClosesBehind

theorem eq_cons (h : ClosesBehind w) : w = '\n' :: w.tail := by
  obtain ⟨tail, rfl⟩ := List.head?_eq_some_iff.mp h.feed
  rfl

theorem closesBrace (h : ClosesBehind w) : ClosesBrace w := by
  obtain ⟨dull, htail, hdull⟩ := h.closes
  refine ⟨'\n' :: dull, ?_, List.forall_mem_cons.mpr ⟨by decide, hdull⟩⟩
  rw [h.eq_cons, htail]
  rfl

end ClosesBehind

/-! ## Ends that agree -/

/-- Two extents agree up to `k` characters if both end there, both end behind `l` and `l'` more, or there is none. -/
inductive Agree (k l l' : Nat) : Option Nat → Option Nat → Prop
  | none : Agree k l l' none none
  | inside {n : Nat} (hn : n ≤ k) : Agree k l l' (some n) (some n)
  | through : Agree k l l' (some (k + l)) (some (k + l'))

namespace Agree

theorem map (h : Agree k l l' o o') (n : Nat) : Agree (k + n) l l' (o.map (· + n)) (o'.map (· + n)) := by
  cases h with
  | none => exact .none
  | inside hn => exact .inside (Nat.add_le_add_right hn n)
  | through =>
      show Agree (k + n) l l' (some (k + l + n)) (some (k + l' + n))
      rw [Nat.add_right_comm k l, Nat.add_right_comm k l']
      exact .through

theorem congr {m m' n' : Nat} (h : Agree k l l' (some m) (some m')) {k' : Nat} (hk : k = k') (hm : m = n)
    (hm' : m' = n') : Agree k' l l' (some n) (some n') := by
  rwa [← hk, ← hm, ← hm']

end Agree

/-- Strings do not reach over a line feed. -/
theorem stringLength?_agree (hw : ClosesBehind w) (hw' : ClosesBehind w')
    (hquote : quote = '\x22' ∨ quote = '\x27') (u : List Char) :
    Agree u.length w.length w'.length (stringLength? quote (u ++ w)) (stringLength? quote (u ++ w')) := by
  match u with
  | [] =>
      rw [List.nil_append, List.nil_append, hw.closesBrace.stringLength?_eq hquote,
        hw'.closesBrace.stringLength?_eq hquote]
      exact .none
  | c :: u =>
      by_cases hslash : c = '\\'
      · subst hslash
        rw [List.cons_append, List.cons_append, stringLength?_escape, stringLength?_escape]
        -- The backslash may stand right in front of the line feed.
        cases u with
        | nil =>
            rw [List.nil_append, List.nil_append, hw.closes.stringLength?_eq hquote, hw'.closes.stringLength?_eq hquote]
            exact .none
        | cons d u => exact (stringLength?_agree hw hw' hquote u).map 2
      · rw [List.cons_append, List.cons_append, stringLength?_of_ne hslash, stringLength?_of_ne hslash]
        split
        · exact .none
        split
        · exact .inside (by simp)
        · exact (stringLength?_agree hw hw' hquote u).map 1

/-- The end of a comment is found in front of the line feed or not at all. -/
theorem lengthThrough_agree (hw : ClosesBehind w) (hw' : ClosesBehind w') (u : List Char) :
    Agree u.length w.length w'.length (some (lengthThrough ['*', '/'] (u ++ w)))
      (some (lengthThrough ['*', '/'] (u ++ w'))) := by
  -- The mark cannot lie across the line feed, and there is no slash behind it.
  have hinside : ∀ {w n}, ClosesBehind w → find? ['*', '/'] (u ++ w) = some n → n + 2 ≤ u.length := by
    intro w n hw hfind
    obtain ⟨front, rest, hsplit, rfl⟩ := exists_of_find?_eq_some hfind
    refine Nat.le_of_not_lt fun hlong => ?_
    have hslash : '/' ∈ (u ++ w).drop u.length := by
      rw [hsplit, List.drop_append_of_le_length (by simp; omega)]
      refine List.mem_append_left _ ?_
      rw [List.mem_iff_getElem?]
      refine ⟨front.length + 1 - u.length, ?_⟩
      rw [List.getElem?_drop, List.getElem?_append_right (by omega)]
      have hindex : u.length + (front.length + 1 - u.length) - front.length = 1 := by omega
      rw [hindex]
      rfl
    rw [List.drop_left] at hslash
    exact hw.closesBrace.slash_notMem hslash
  rw [lengthThrough, lengthThrough]
  cases hfind : find? ['*', '/'] (u ++ w) with
  | some n =>
      have hn := hinside hw hfind
      rw [find?_inside hfind hn (by simp)]
      exact .inside hn
  | none =>
      cases hfind' : find? ['*', '/'] (u ++ w') with
      | some n =>
          have hn := hinside hw' hfind'
          rw [find?_inside hfind' hn (by simp)] at hfind
          cases hfind
      | none =>
          rw [List.length_append, List.length_append]
          exact .through

theorem lastOf_append (hn : n ≤ u.length) : lastOf n (u ++ w) = lastOf n u := by
  rw [lastOf, lastOf, List.take_append_of_le_length hn]

/-- Literals agree if templates do. -/
theorem literalExtent_agree (hw : ClosesBehind w) (hw' : ClosesBehind w') (c : Char) (u : List Char)
    (htemplate : Agree u.length w.length w'.length (templateExtent (u ++ w)) (templateExtent (u ++ w'))) :
    Agree (c :: u).length w.length w'.length (literalExtent before (c :: u ++ w)) (literalExtent before (c :: u ++ w')) := by
  rw [literalExtent, literalExtent, List.cons_append, List.cons_append, List.length_cons]
  by_cases hslash : c = '/'
  · subst hslash
    rw [literalLength?_slash, literalLength?_slash]
    cases u with
    | nil =>
        rw [List.nil_append, List.nil_append, hw.feed, hw'.feed]
        exact .none
    | cons d u =>
        rw [List.cons_append, List.cons_append, List.head?_cons, List.head?_cons]
        split
        · split
          · exact .none
          · have hline : ∀ {w}, ClosesBehind w → restOfLine ('/' :: d :: (u ++ w)) = restOfLine ('/' :: d :: u) := by
              intro w hw
              rw [hw.eq_cons]
              exact restOfLine_append_feed ('/' :: d :: u) w.tail
            rw [hline hw, hline hw']
            exact .inside (List.takeWhile_sublist _).length_le
        split
        · exact (lengthThrough_agree hw hw' u).map 2
        · exact .none
  · rw [literalLength?_of_ne_slash hslash, literalLength?_of_ne_slash hslash]
    split
    · rename_i hquote
      split
      · exact .none
      · exact (stringLength?_agree hw hw' (by simpa using hquote) u).map 1
    split
    · exact htemplate.map 1
    · exact .none

/-- The scanners find the same in front of either text. -/
structure ExtentsAgree (w w' u : List Char) : Prop where
  template : Agree u.length w.length w'.length (templateExtent (u ++ w)) (templateExtent (u ++ w'))
  braces (depth : Nat) (before : Char) : Agree u.length w.length w'.length (braceExtent depth before (u ++ w))
    (braceExtent depth before (u ++ w'))

/-- Behind a literal the scan goes on in front of the line feed, or all of the text is read. -/
theorem ExtentsAgree.behind (hshorter : ∀ v : List Char, v.length < u.length → ExtentsAgree w w' v) (hpos : 0 < n)
    (hn : n ≤ u.length) :
    Agree (u.length - n) w.length w'.length (templateExtent ((u ++ w).drop n)) (templateExtent ((u ++ w').drop n)) ∧
      ∀ depth before, Agree (u.length - n) w.length w'.length (braceExtent depth before ((u ++ w).drop n))
        (braceExtent depth before ((u ++ w').drop n)) := by
  have hagree := hshorter (u.drop n) (by rw [List.length_drop]; omega)
  rw [List.drop_append_of_le_length hn, List.drop_append_of_le_length hn, ← List.length_drop]
  exact ⟨hagree.template, hagree.braces⟩

/-- The rest of a template, from its first character on. -/
theorem templateExtent_agree (hw : ClosesBehind w) (hw' : ClosesBehind w')
    (hshorter : ∀ v : List Char, v.length < (c :: u).length → ExtentsAgree w w' v) :
    Agree (c :: u).length w.length w'.length (templateExtent (c :: u ++ w)) (templateExtent (c :: u ++ w')) := by
  by_cases hslash : c = '\\'
  · subst hslash
    cases u with
    | nil =>
        -- The line feed is escaped.
        rw [hw.eq_cons, hw'.eq_cons, List.singleton_append, List.singleton_append, templateExtent_escape,
          templateExtent_escape, hw.closes.templateExtent_eq, hw'.closes.templateExtent_eq]
        exact Agree.through.congr rfl (by simp only [List.length_cons, List.length_nil]; omega)
          (by simp only [List.length_cons, List.length_nil]; omega)
    | cons d u =>
        rw [List.cons_append, List.cons_append, List.cons_append, List.cons_append, templateExtent_escape,
          templateExtent_escape]
        exact (hshorter u (by simp only [List.length_cons]; omega)).template.map 2
  by_cases htick : c = '\x60'
  · subst htick
    rw [List.cons_append, List.cons_append, templateExtent_tick, templateExtent_tick]
    exact .inside (by simp)
  by_cases hhole : c = '$' ∧ u.head? = some '\x7b'
  · obtain ⟨rfl, hhead⟩ := hhole
    obtain ⟨u, rfl⟩ := List.head?_eq_some_iff.mp hhead
    have hgroup := (hshorter u (by simp only [List.length_cons]; omega)).braces 1 '\x7b'
    rw [List.cons_append, List.cons_append, List.cons_append, List.cons_append, templateExtent_hole,
      templateExtent_hole]
    generalize braceExtent 1 '\x7b' (u ++ w) = o at hgroup ⊢
    generalize braceExtent 1 '\x7b' (u ++ w') = o' at hgroup ⊢
    cases hgroup with
    | none => exact .none
    | @inside n hn =>
        have hrest := (ExtentsAgree.behind hshorter (Nat.succ_pos (n + 1)) (by simpa using hn)).1.map (n + 2)
        rw [Nat.sub_add_cancel (by simpa using hn)] at hrest
        exact hrest
    | through =>
        -- The hole ends with the text, so nothing is left of the template.
        rw [Option.bind_some, Option.bind_some, ← List.length_append, ← List.length_append, List.drop_length,
          List.drop_length, templateExtent_nil, Option.map_some, Option.map_some, List.length_append,
          List.length_append]
        exact Agree.through.congr rfl (by simp only [List.length_cons]; omega) (by simp only [List.length_cons]; omega)
  · have hnot : ∀ {w}, ClosesBehind w → ¬(c = '$' ∧ (u ++ w).head? = some '\x7b') := by
      rintro w hw ⟨hc, hhead⟩
      cases u with
      | nil =>
          rw [List.nil_append, hw.feed] at hhead
          cases hhead
      | cons d u => exact hhole ⟨hc, hhead⟩
    rw [List.cons_append, List.cons_append, templateExtent_of_ne hslash htick (hnot hw),
      templateExtent_of_ne hslash htick (hnot hw')]
    exact (hshorter u (Nat.lt_succ_self _)).template.map 1

/-- The rest of a group, from its first character on. -/
theorem braceExtent_agree (hw : ClosesBehind w) (hw' : ClosesBehind w')
    (hshorter : ∀ v : List Char, v.length < (c :: u).length → ExtentsAgree w w' v) (depth : Nat) (before : Char) :
    Agree (c :: u).length w.length w'.length (braceExtent depth before (c :: u ++ w))
      (braceExtent depth before (c :: u ++ w')) := by
  obtain ⟨htemplate, hbraces⟩ := hshorter u (Nat.lt_succ_self _)
  have hliteral := @literalExtent_agree before w w' hw hw' c u htemplate
  generalize ho : literalExtent before (c :: u ++ w) = o at hliteral
  generalize ho' : literalExtent before (c :: u ++ w') = o' at hliteral
  cases hliteral with
  | none =>
      rw [List.cons_append] at ho ho' ⊢
      rw [List.cons_append, braceExtent_none ho, braceExtent_none ho']
      split
      · exact (hbraces _ _).map 1
      split
      · split
        · exact .inside (by simp)
        · exact (hbraces _ _).map 1
      · exact (hbraces _ _).map 1
  | @inside n hn =>
      have hrest := (ExtentsAgree.behind hshorter (literalExtent_pos ho) hn).2 depth (lastOf n (c :: u))
      rw [braceExtent_literal ho, braceExtent_literal ho', lastOf_append hn, lastOf_append hn]
      have hsum := hrest.map n
      rwa [Nat.sub_add_cancel hn] at hsum
  | through =>
      rw [braceExtent_literal ho, braceExtent_literal ho', ← List.length_append, ← List.length_append,
        List.drop_length, List.drop_length, braceExtent_nil, braceExtent_nil]
      exact .none

/-- What a scanner finds in front of a line feed does not depend on what closes the last brace behind it. -/
theorem extents_agree (hw : ClosesBehind w) (hw' : ClosesBehind w') (u : List Char) : ExtentsAgree w w' u := by
  have hthrough : ∀ {l l' : Nat}, Agree 0 l l' (some l) (some l') := by
    intro l l'
    have h := @Agree.through 0 l l'
    rwa [Nat.zero_add, Nat.zero_add] at h
  -- The induction is on the length: an escape takes two characters, a literal as many as it is long.
  induction hlength : u.length using Nat.strongRecOn generalizing u with
  | _ size ih =>
  subst hlength
  cases u with
  | nil =>
      constructor
      · rw [List.nil_append, List.nil_append, hw.closesBrace.templateExtent_eq, hw'.closesBrace.templateExtent_eq]
        exact hthrough
      · intro depth before
        rw [List.nil_append, List.nil_append, hw.closesBrace.braceExtent_eq, hw'.closesBrace.braceExtent_eq]
        split
        · exact hthrough
        · exact .none
  | cons c u =>
      have hshorter : ∀ v : List Char, v.length < (c :: u).length → ExtentsAgree w w' v := fun v hv => ih _ hv v rfl
      exact ⟨templateExtent_agree hw hw' hshorter, braceExtent_agree hw hw' hshorter⟩

/-- A group that ends with the text still does when what closes it is exchanged. -/
theorem braceExtent_exchange (hw : ClosesBehind w) (hw' : ClosesBehind w')
    (h : braceExtent depth before (u ++ w) = some (u ++ w).length) :
    braceExtent depth before (u ++ w') = some (u ++ w').length := by
  have hagree := (extents_agree hw hw' u).braces depth before
  rw [h, List.length_append] at hagree
  rw [List.length_append]
  generalize braceExtent depth before (u ++ w') = o' at hagree
  generalize hm : u.length + w.length = m at hagree
  cases hagree with
  | inside hn =>
      have hpos : 0 < w.length := by
        rw [hw.eq_cons]
        exact Nat.succ_pos _
      omega
  | through => rfl

/-- What stands before a group matters only to an apostrophe and to the address in front of a double slash. -/
theorem braceExtent_before {before' : Char} (hword : isAsciiAlphanumeric before = isAsciiAlphanumeric before')
    (hcolon : (before == ':') = (before' == ':')) (s : List Char) :
    braceExtent depth before s = braceExtent depth before' s := by
  cases s with
  | nil => rfl
  | cons c s =>
      have hliteral : literalExtent before (c :: s) = literalExtent before' (c :: s) := by
        rw [literalExtent, literalExtent]
        by_cases hslash : c = '/'
        · rw [hslash, literalLength?_slash, literalLength?_slash, hcolon]
        · rw [literalLength?_of_ne_slash hslash, literalLength?_of_ne_slash hslash, hword]
      cases h : literalExtent before (c :: s) with
      | none => rw [braceExtent_none h, braceExtent_none (hliteral.symm.trans h)]
      | some n =>
          rw [braceExtent_literal h, braceExtent_literal (hliteral.symm.trans h)]

end Markup
end StoryDocs
