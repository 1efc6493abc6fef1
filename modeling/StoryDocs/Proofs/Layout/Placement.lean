import StoryDocs.Proofs.Layout.Requoting
import StoryDocs.Proofs.Script.Atoms.Extents

/-!
# Where the literals of a module lie

The strings of a module that change their quotes are quoted literals that lie apart, and each of them lies before,
behind or in the code of a template.  So the text before a template, the template and the text behind it are
requoted each by itself.
-/

namespace StoryDocs
namespace Layout

open Text Script

variable {style : Style} {literals : Literals} {text u v : List Char} {ss ts : List Span} {s t : Span}

/-! ## Literals of a module -/

/-- A range of a text that holds a template or a string. -/
def Enclosed (text : List Char) (s : Span) : Prop :=
  ∃ front mark body rest, text = front ++ (mark :: body ++ [mark] ++ rest) ∧ (IsQuote mark ∨ mark = '\x60') ∧
    s = ⟨front.length, front.length + (body.length + 2)⟩

/-- Literals that lie in a text as those of a module do. -/
structure Literals.Placed (literals : Literals) (text : List Char) : Prop where
  quoted : ∀ s ∈ literals.strings, Quoted text s
  apart : Apart literals.strings
  enclosed : ∀ t ∈ literals.verbatim, Enclosed text t
  beside : ∀ s ∈ literals.strings, ∀ t ∈ literals.verbatim,
    s.stop ≤ t.start ∨ t.stop ≤ s.start ∨ t.start < s.start ∧ s.stop < t.stop

theorem slice_literal (front body rest : List Char) (mark : Char) :
    ((front ++ (mark :: body ++ [mark] ++ rest)).drop front.length).take
      (front.length + (body.length + 2) - front.length) = mark :: body ++ [mark] := by
  have hlength : body.length + 2 = (mark :: body ++ [mark]).length := by simp
  rw [List.drop_left, Nat.add_sub_cancel_left, hlength, List.take_left]

theorem quoted_of_holds (h : (Literal.string s).Holds text) (hone : Literals.isBroken text s = false) :
    Quoted text s := by
  obtain ⟨front, quote, content, rest, rfl, hquote, rfl⟩ := h
  refine ⟨front, quote, content, rest, rfl, hquote, ?_, rfl⟩
  intro hfeed
  rw [Literals.isBroken, slice_literal, List.contains_eq_mem, decide_eq_false_iff_not] at hone
  exact hone (List.mem_append_left _ (List.mem_cons_of_mem _ hfeed))

theorem enclosed_of_holds {l : Literal} (h : l.Holds text) : Enclosed text l.span := by
  cases l with
  | string span =>
      obtain ⟨front, quote, content, rest, htext, hquote, hspan⟩ := h
      exact ⟨front, quote, content, rest, htext, .inl hquote, hspan⟩
  | template span =>
      obtain ⟨front, body, rest, htext, hspan⟩ := h
      exact ⟨front, '\x60', body, rest, htext, .inr rfl, hspan⟩

/-- A string lies before or behind another literal, or in the code of a template. -/
theorem string_beside {l : Literal} (h : (Literal.string s).Beside l) :
    s.stop ≤ l.span.start ∨ l.span.stop ≤ s.start ∨ l.span.start < s.start ∧ s.stop < l.span.stop := by
  rcases h with h | h | ⟨_, h⟩ | ⟨⟨_, h⟩, _⟩
  · exact .inl h
  · exact .inr (.inl h)
  · exact .inr (.inr h)
  · cases h

/-- Strings of a module in order lie apart. -/
theorem apart_of_beside (hsorted : Sorted ss) (hlt : ∀ s ∈ ss, s.start < s.stop)
    (hbeside : ss.Pairwise fun a b => (Literal.string a).Beside (.string b)) : Apart ss := by
  refine (hsorted.and hbeside).imp_of_mem ?_
  rintro a b ha hb ⟨hle, h⟩
  have ha' := hlt a ha
  have hb' := hlt b hb
  rcases h with h | h | ⟨⟨_, h⟩, _⟩ | ⟨⟨_, h⟩, _⟩
  · exact h
  · have h : b.stop ≤ a.start := h
    omega
  · cases h
  · cases h

/-- The literals of a module that is read lie in its text. -/
theorem placed_ofModule {features : Features} {items : List Tree} (h : Module.parse? features text = some items) :
    (Literals.ofModule text items).Placed text := by
  obtain ⟨hholds, hbeside⟩ := Module.literals_laid h
  have hall : ∀ l ∈ (Tree.stringsOf items).map Literal.string ++ (Tree.templatesOf items).map Literal.template,
      l.Holds text := fun l hl => hholds l (by rw [Tree.literalsOf, Multiset.coe_add]; exact hl)
  rw [Tree.literalsOf, Multiset.coe_add, Multiset.pairwise_coe_iff_pairwise, List.pairwise_append,
    List.pairwise_map] at hbeside
  obtain ⟨hstrings, _, hcross⟩ := hbeside
  have hstring : ∀ s ∈ Tree.stringsOf items, (Literal.string s).Holds text := fun s hs =>
    hall _ (List.mem_append_left _ (List.mem_map_of_mem hs))
  have hmem : ∀ s ∈ (Literals.ofModule text items).strings,
      s ∈ Tree.stringsOf items ∧ Literals.isBroken text s = false := by
    intro s hs
    have hkept := List.mem_filter.mp (List.mem_mergeSort.mp hs)
    exact ⟨hkept.1, by simpa using hkept.2⟩
  have hquoted : ∀ s ∈ (Literals.ofModule text items).strings, Quoted text s := fun s hs =>
    quoted_of_holds (hstring s (hmem s hs).1) (hmem s hs).2
  refine ⟨hquoted, apart_of_beside (Sorted.ofModule text items) (fun s hs => (hquoted s hs).lt.1) ?_, ?_, ?_⟩
  · have hperm := List.mergeSort_perm ((Tree.stringsOf items).filter fun s => !Literals.isBroken text s)
      fun a b => a.start ≤ b.start
    exact hperm.symm.pairwise (hstrings.sublist List.filter_sublist) fun h => h.symm
  · intro t ht
    rcases List.mem_append.mp ht with ht | ht
    · exact enclosed_of_holds (hstring t (List.mem_filter.mp ht).1)
    · exact enclosed_of_holds (hall _ (List.mem_append_right _ (List.mem_map_of_mem ht)))
  -- A string on one line is beside all other literals; the broken ones are among the strings that were read, so
  -- they have to be told apart from it first.
  · intro s hs t ht
    obtain ⟨hs, hone⟩ := hmem s hs
    rcases List.mem_append.mp ht with ht | ht
    · obtain ⟨ht, hbroken⟩ := List.mem_filter.mp ht
      have hne : s ≠ t := by
        rintro rfl
        rw [hone] at hbroken
        cases hbroken
      have hsymm : Std.Symm fun a b => (Literal.string a).Beside (.string b) := ⟨fun _ _ h => h.symm⟩
      exact string_beside (hstrings.forall hs ht hne)
    · exact string_beside (hcross _ (List.mem_map_of_mem hs) _ (List.mem_map_of_mem ht))

/-! ## Requoting the parts of a text -/

/-- A string in the front of a text is replaced as in the front. -/
theorem requoteIn_front {n : Nat} (h : s.stop ≤ n + u.length) :
    requoteIn style (u ++ v) n s = requoteIn style u n s := by
  have hslice : ((u ++ v).drop (s.start - n)).take (s.stop - n - (s.start - n)) =
      (u.drop (s.start - n)).take (s.stop - n - (s.start - n)) := by
    by_cases hstart : s.start - n ≤ u.length
    · rw [List.drop_append_of_le_length hstart, List.take_append_of_le_length (by rw [List.length_drop]; omega)]
    · have hnone : s.stop - n - (s.start - n) = 0 := by omega
      rw [hnone, List.take_zero, List.take_zero]
  simp only [requoteIn, hslice]

/-- A string behind the front of a text is replaced as in what is left. -/
theorem requoteIn_behind {n : Nat} (h : n + u.length ≤ s.start) :
    (requoteIn style (u ++ v) n s).behind u.length = requoteIn style v (n + u.length) s := by
  have hstart : s.start - n = u.length + (s.start - (n + u.length)) := by omega
  have hlength : s.stop - n - (s.start - n) = s.stop - (n + u.length) - (s.start - (n + u.length)) := by omega
  have hslice : ((u ++ v).drop (s.start - n)).take (s.stop - n - (s.start - n)) =
      (v.drop (s.start - (n + u.length))).take (s.stop - (n + u.length) - (s.start - (n + u.length))) := by
    rw [hlength, hstart, List.drop_length_add_append]
  simp only [requoteIn, Replacement.behind, hslice]
  rw [Nat.sub_sub, Nat.sub_sub]

/-- Where no string reaches from one part of a text into the next one, the parts are requoted by themselves. -/
theorem requoteLine_append {n : Nat} (happart : Apart ss)
    (hss : ∀ s ∈ ss, n ≤ s.start ∧ s.start ≤ s.stop ∧ s.stop ≤ n + u.length)
    (hts : ∀ s ∈ ts, n + u.length ≤ s.start ∧ s.start ≤ s.stop) :
    requoteLine style (u ++ v) n (ss ++ ts) = requoteLine style u n ss ++ requoteLine style v (n + u.length) ts := by
  have hfront : ss.map (requoteIn style (u ++ v) n) = ss.map (requoteIn style u n) :=
    List.map_congr_left fun s hs => requoteIn_front (hss s hs).2.2
  have hback : (ts.map (requoteIn style (u ++ v) n)).map (Replacement.behind u.length) =
      ts.map (requoteIn style v (n + u.length)) := by
    rw [List.map_map]
    exact List.map_congr_left fun s hs => requoteIn_behind (hts s hs).1
  have hfits : Fits 0 (0 + u.length) (ss.map (requoteIn style u n)) := by
    rw [Nat.zero_add]
    refine fits_requoteIn happart (Nat.zero_le _) fun s hs => ?_
    obtain ⟨hstart, hle, hstop⟩ := hss s hs
    omega
  have hlater : ∀ r ∈ ts.map (requoteIn style (u ++ v) n), 0 + u.length ≤ r.start ∧ r.start ≤ r.stop := by
    intro r hr
    obtain ⟨s, hs, rfl⟩ := List.mem_map.mp hr
    obtain ⟨hstart, hle⟩ := hts s hs
    show 0 + u.length ≤ s.start - n ∧ s.start - n ≤ s.stop - n
    omega
  have hstops : ∀ r ∈ ts.map (requoteIn style (u ++ v) n), u.length ≤ r.stop := fun r hr => by
    have hranges := hlater r hr
    omega
  rw [requoteLine, List.map_append, hfront, splice, spliceFrom_append hfits hlater, Nat.zero_add,
    ← Nat.add_zero u.length, ← spliceFrom_behind 0 hstops, hback]
  rfl

/-! ## The text around a literal -/

/-- The strings before a range. -/
def Literals.before (literals : Literals) (t : Span) : List Span :=
  literals.strings.filter fun s => s.stop ≤ t.start

/-- The strings in a range. -/
def Literals.inside (literals : Literals) (t : Span) : List Span :=
  literals.strings.filter fun s => t.start < s.start && s.stop < t.stop

/-- The strings behind a range. -/
def Literals.behind (literals : Literals) (t : Span) : List Span :=
  literals.strings.filter fun s => t.stop ≤ s.start

theorem Enclosed.lt (h : Enclosed text t) : t.start < t.stop := by
  obtain ⟨front, mark, body, rest, _, _, rfl⟩ := h
  show front.length < front.length + (body.length + 2)
  omega

/-- Where a class of ranges in order is closed towards the front, its members come first. -/
theorem Apart.filter_append {p : Span → Bool} (h : Apart ss) (hlt : ∀ s ∈ ss, s.start < s.stop)
    (hp : ∀ s t : Span, s.stop < t.stop → p t = true → p s = true) :
    ss = ss.filter p ++ ss.filter fun s => !p s := by
  induction ss with
  | nil => rfl
  | cons a ss ih =>
      obtain ⟨hfirst, hrest⟩ := List.pairwise_cons.mp h
      obtain ⟨_, hlt'⟩ := List.forall_mem_cons.mp hlt
      cases ha : p a with
      | true =>
          rw [List.filter_cons_of_pos ha, List.filter_cons_of_neg (by rw [ha]; decide), List.cons_append]
          exact congrArg (a :: ·) (ih hrest hlt')
      | false =>
          have hnone : ss.filter p = [] := by
            refine List.filter_eq_nil_iff.mpr fun b hb hpb => ?_
            have hle := hfirst b hb
            have hb' := hlt' b hb
            rw [hp a b (by omega) hpb] at ha
            cases ha
          have hall : (a :: ss).filter (fun s => !p s) = a :: ss := by
            refine List.filter_eq_self.mpr (List.forall_mem_cons.mpr ⟨by rw [ha]; rfl, fun b hb => ?_⟩)
            rw [Bool.not_eq_true']
            exact Bool.eq_false_iff.mpr (List.filter_eq_nil_iff.mp hnone b hb)
          rw [List.filter_cons_of_neg (by rw [ha]; decide), hnone, hall]
          rfl

/-- The strings of a text in order, as they lie around a literal. -/
theorem Literals.Placed.strings_eq (h : literals.Placed text) (ht : t ∈ literals.verbatim) :
    literals.strings = literals.before t ++ (literals.inside t ++ literals.behind t) := by
  have hlt : ∀ s ∈ literals.strings, s.start < s.stop := fun s hs => (h.quoted s hs).lt.1
  have hlt' := (h.enclosed t ht).lt
  have hfirst := h.apart.filter_append (p := fun s => s.stop ≤ t.start) hlt fun a b hab hb => by
    rw [decide_eq_true_eq] at hb ⊢
    omega
  have hlater : Apart (literals.strings.filter fun s => !decide (s.stop ≤ t.start)) := h.apart.filter _
  have hrest := hlater.filter_append (p := fun s => s.stop < t.stop)
    (fun s hs => hlt s (List.mem_filter.mp hs).1) fun a b hab hb => by
      rw [decide_eq_true_eq] at hb ⊢
      omega
  rw [List.filter_filter, List.filter_filter] at hrest
  have hinside : literals.strings.filter (fun s => decide (s.stop < t.stop) && !decide (s.stop ≤ t.start)) =
      literals.inside t := by
    refine List.filter_congr fun s hs => ?_
    have hs' := hlt s hs
    have hbeside := h.beside s hs t ht
    rw [← decide_not, ← Bool.decide_and, ← Bool.decide_and, decide_eq_decide]
    omega
  have hbehind : literals.strings.filter (fun s => (!decide (s.stop < t.stop)) && !decide (s.stop ≤ t.start)) =
      literals.behind t := by
    refine List.filter_congr fun s hs => ?_
    have hs' := hlt s hs
    have hbeside := h.beside s hs t ht
    rw [← decide_not, ← decide_not, ← Bool.decide_and, decide_eq_decide]
    omega
  rw [hinside, hbehind] at hrest
  rw [← hrest]
  exact hfirst

theorem Literals.Placed.apart_before (h : literals.Placed text) (t : Span) : Apart (literals.before t) :=
  h.apart.filter _

theorem Literals.Placed.apart_inside (h : literals.Placed text) (t : Span) : Apart (literals.inside t) :=
  h.apart.filter _

theorem Literals.mem_inside : s ∈ literals.inside t ↔ s ∈ literals.strings ∧ t.start < s.start ∧ s.stop < t.stop := by
  rw [Literals.inside, List.mem_filter, Bool.and_eq_true, decide_eq_true_eq, decide_eq_true_eq]

theorem Literals.mem_before : s ∈ literals.before t ↔ s ∈ literals.strings ∧ s.stop ≤ t.start := by
  rw [Literals.before, List.mem_filter, decide_eq_true_eq]

theorem Literals.mem_behind : s ∈ literals.behind t ↔ s ∈ literals.strings ∧ t.stop ≤ s.start := by
  rw [Literals.behind, List.mem_filter, decide_eq_true_eq]

/-- What stands before a literal, the literal and what stands behind it are requoted each by itself. -/
theorem Literals.Placed.requoted_eq {front literal back : List Char}
    (h : literals.Placed (front ++ (literal ++ back)))
    (ht : ⟨front.length, front.length + literal.length⟩ ∈ literals.verbatim) :
    requoted style (front ++ (literal ++ back)) literals.strings =
      requoteLine style front 0 (literals.before ⟨front.length, front.length + literal.length⟩) ++
        (requoteLine style literal front.length (literals.inside ⟨front.length, front.length + literal.length⟩) ++
          requoteLine style back (front.length + literal.length)
            (literals.behind ⟨front.length, front.length + literal.length⟩)) := by
  have hlt : ∀ s ∈ literals.strings, s.start < s.stop := fun s hs => (h.quoted s hs).lt.1
  generalize hspan : (⟨front.length, front.length + literal.length⟩ : Span) = t at ht ⊢
  have hstart : front.length = t.start := by rw [← hspan]
  have hstop : front.length + literal.length = t.stop := by rw [← hspan]
  have hinside : ∀ s ∈ literals.inside t, front.length < s.start ∧ s.start < s.stop ∧
      s.stop < front.length + literal.length := by
    intro s hs
    obtain ⟨hs, hfrom, hto⟩ := mem_inside.mp hs
    have hs' := hlt s hs
    omega
  have hbehind : ∀ s ∈ literals.behind t, front.length + literal.length ≤ s.start ∧ s.start < s.stop := by
    intro s hs
    obtain ⟨hs, hfrom⟩ := mem_behind.mp hs
    have hs' := hlt s hs
    omega
  show requoteLine style _ 0 literals.strings = _
  rw [h.strings_eq ht, requoteLine_append (h.apart_before t), Nat.zero_add, requoteLine_append (h.apart_inside t)]
  · intro s hs
    have hfacts := hinside s hs
    omega
  · intro s hs
    have hfacts := hbehind s hs
    omega
  · intro s hs
    obtain ⟨hs, hto⟩ := mem_before.mp hs
    have hs' := hlt s hs
    omega
  · intro s hs
    rcases List.mem_append.mp hs with hs | hs
    · have hfacts := hinside s hs
      omega
    · have hfacts := hbehind s hs
      omega

/-- The marks of a literal stay around its requoted text. -/
theorem requoteLine_enclosed {mark : Char} {body : List Char} {n : Nat} (happart : Apart ss)
    (hss : ∀ s ∈ ss, n < s.start ∧ s.start ≤ s.stop ∧ s.stop < n + (body.length + 2)) :
    requoteLine style (mark :: body ++ [mark]) n ss = mark :: requoteLine style body (n + 1) ss ++ [mark] := by
  have hfirst := @requoteLine_append style [mark] (body ++ [mark]) [] ss n List.Pairwise.nil (by simp) fun s hs => by
    have hfacts := hss s hs
    rw [List.length_singleton]
    omega
  have hlast := @requoteLine_append style body [mark] ss [] (n + 1) happart (fun s hs => by
    have hfacts := hss s hs
    omega) (by simp)
  rw [List.append_nil] at hlast
  rw [List.nil_append, List.length_singleton, hlast] at hfirst
  exact hfirst

theorem Literals.Placed.requoteLine_inside {front body rest : List Char} {mark : Char}
    (h : literals.Placed (front ++ (mark :: body ++ [mark] ++ rest)))
    (ht : t = ⟨front.length, front.length + (mark :: body ++ [mark]).length⟩) :
    requoteLine style (mark :: body ++ [mark]) front.length (literals.inside t) =
      mark :: requoteLine style body (front.length + 1) (literals.inside t) ++ [mark] := by
  refine requoteLine_enclosed (h.apart_inside t) fun s hs => ?_
  obtain ⟨hs, hstart, hstop⟩ := mem_inside.mp hs
  have hs' := (h.quoted s hs).lt.1
  rw [ht] at hstart hstop
  simp only [List.length_append, List.length_cons, List.length_nil] at hstart hstop
  omega

theorem Quoted.of_append (h : Quoted (u ++ v) s) (hs : s.stop ≤ u.length) : Quoted u s := by
  obtain ⟨front, quote, content, rest, htext, hquote, hcontent, rfl⟩ := h
  have hlength : (front ++ (quote :: content ++ [quote])).length ≤ u.length := by
    simp only [List.length_append, List.length_cons, List.length_nil] at hs ⊢
    omega
  rw [← List.append_assoc front] at htext
  rcases List.append_eq_append_iff.mp htext with ⟨beyond, hover, _⟩ | ⟨more, hmore, _⟩
  · have hnil : beyond = [] := by
      rw [hover, List.length_append] at hlength
      exact List.length_eq_zero_iff.mp (by omega)
    rw [hnil, List.append_nil] at hover
    exact ⟨front, quote, content, [], by rw [List.append_nil]; exact hover.symm, hquote, hcontent, rfl⟩
  · exact ⟨front, quote, content, more, by rw [hmore, List.append_assoc], hquote, hcontent, rfl⟩

end Layout
end StoryDocs
