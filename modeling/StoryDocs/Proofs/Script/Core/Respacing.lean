import StoryDocs.Proofs.Script.Core.Tokens

/-!
# Other blanks

Blanks with a line feed among them may become other such blanks: the lines of an expression are moved that way when
it is put somewhere else.  The syntax stays what it is, with the same shapes.
-/

namespace StoryDocs
namespace Script

open Text Grammar

variable {tags : Bool} {c : Char} {g s t w rest text : List Char} {category : Category} {shapes : List Shape}

/-! ## Texts with other blanks -/

/-- The second text has other blanks where the first one goes over to a new line. -/
inductive Respaced : List Char → List Char → Prop
  | nil : Respaced [] []
  | char (c : Char) {s t : List Char} (h : Respaced s t) : Respaced (c :: s) (c :: t)
  | gap {g g' s t : List Char} (hg : allBlank g = true) (hg' : allBlank g' = true) (hfeed : '\n' ∈ g)
      (hfeed' : '\n' ∈ g') (h : Respaced s t) : Respaced (g ++ s) (g' ++ t)

/-- A text on one line that ends with code. -/
structure OneLine (w : List Char) : Prop where
  feed : '\n' ∉ w
  last : ∀ c ∈ w.getLast?, isBlank c = false

theorem exists_lineEnd (h : '\n' ∈ g) :
    ∃ w e k, g = w ++ e :: k ∧ w.any isLineBreak = false ∧ isLineBreak e = true := by
  induction g with
  | nil => cases h
  | cons c g ih =>
      cases hc : isLineBreak c with
      | true => exact ⟨[], c, g, rfl, rfl, hc⟩
      | false =>
          have hrest : '\n' ∈ g := (List.mem_cons.mp h).resolve_left (by rintro rfl; cases hc)
          obtain ⟨w, e, k, rfl, hw, he⟩ := ih hrest
          exact ⟨c :: w, e, k, rfl, by rw [List.any_cons, hc, hw]; rfl, he⟩

theorem not_infix_blanks (hg : allBlank g = true) (h : ¬ ['*', '/'] <:+: w) : ¬ ['*', '/'] <:+: g ++ w := by
  induction g with
  | nil => exact h
  | cons c g ih =>
      rw [allBlank, List.all_cons, Bool.and_eq_true] at hg
      rw [List.cons_append, List.infix_cons_iff, not_or]
      refine ⟨?_, ih hg.2⟩
      intro hprefix
      obtain ⟨rfl, _⟩ := List.cons_prefix_cons.mp hprefix
      exact absurd hg.1 (by decide)

namespace Respaced

theorem refl (s : List Char) : Respaced s s := by
  induction s with
  | nil => exact .nil
  | cons c s ih => exact .char c ih

theorem append_left (w : List Char) (h : Respaced s t) : Respaced (w ++ s) (w ++ t) := by
  induction w with
  | nil => exact h
  | cons c w ih => exact .char c ih

theorem append_right (h : Respaced s t) (w : List Char) : Respaced (s ++ w) (t ++ w) := by
  induction h with
  | nil => exact refl w
  | char c _ ih => exact .char c ih
  | gap hg hg' hfeed hfeed' _ ih =>
      rw [List.append_assoc, List.append_assoc]
      exact .gap hg hg' hfeed hfeed' ih

theorem eq_nil (h : Respaced [] t) : t = [] := by
  generalize htext : [] = s at h
  cases h with
  | nil => rfl
  | char => cases htext
  | gap _ _ hfeed =>
      obtain ⟨rfl, _⟩ := List.append_eq_nil_iff.mp htext.symm
      cases hfeed

/-- Code stays. -/
theorem cons (h : Respaced (c :: s) t) (hc : isBlank c = false) : ∃ t', t = c :: t' ∧ Respaced s t' := by
  generalize htext : c :: s = text at h
  cases h with
  | nil => cases htext
  | char d h =>
      obtain ⟨rfl, rfl⟩ := List.cons.inj htext
      exact ⟨_, rfl, h⟩
  | @gap g₁ g₂ s' t' hg₁ hg₂ hfeed₁ hfeed₂ h =>
      cases g₁ with
      | nil => cases hfeed₁
      | cons d g₁ =>
          obtain ⟨rfl, _⟩ := List.cons.inj htext
          rw [Text.allBlank, List.all_cons, hc] at hg₁
          cases hg₁

theorem head? (h : Respaced s t) (hs : StartsCode s) : t.head? = s.head? := by
  obtain ⟨c, k, rfl, hc⟩ := hs
  obtain ⟨t', rfl, _⟩ := h.cons hc
  rfl

/-- A text without a line feed stays, if it ends with code or code stands behind it. -/
theorem append (h : Respaced (w ++ s) t) (hfeed : '\n' ∉ w)
    (hend : (∀ c ∈ w.getLast?, isBlank c = false) ∨ StartsCode s) : ∃ t', t = w ++ t' ∧ Respaced s t' := by
  generalize htext : w ++ s = text at h
  induction h generalizing w with
  | nil =>
      obtain ⟨rfl, rfl⟩ := List.append_eq_nil_iff.mp htext
      exact ⟨[], rfl, .nil⟩
  | @char d s' t' h ih =>
      cases w with
      | nil =>
          rw [List.nil_append] at htext
          exact ⟨d :: t', rfl, htext ▸ .char d h⟩
      | cons e w =>
          obtain ⟨rfl, htail⟩ := List.cons.inj htext
          rw [List.mem_cons, not_or] at hfeed
          have hends : (∀ c ∈ w.getLast?, isBlank c = false) ∨ StartsCode s := by
            refine hend.imp_left fun hlast c hc => hlast c ?_
            rw [List.getLast?_cons, hc]
            rfl
          obtain ⟨t'', rfl, hrest⟩ := ih hfeed.2 hends htail
          exact ⟨t'', rfl, hrest⟩
  | @gap g₁ g₂ s' t' hg₁ hg₂ hfeed₁ hfeed₂ h ih =>
      -- The blanks that change hold a line feed, so they go beyond the text: it is blank, and code ends them.
      rcases List.append_eq_append_iff.mp htext with ⟨g₃, rfl, rfl⟩ | ⟨g₃, rfl, _⟩
      · cases w with
        | nil => exact ⟨_, rfl, .gap hg₁ hg₂ hfeed₁ hfeed₂ h⟩
        | cons d w =>
            exfalso
            rcases hend with hlast | ⟨c, k, hcode, hc⟩
            · have hmem := List.getLast_mem (List.cons_ne_nil d w)
              have hblank := List.all_eq_true.mp hg₁ _ (List.mem_append_left _ hmem)
              rw [hlast _ (List.getLast?_eq_some_getLast _)] at hblank
              cases hblank
            · cases g₃ with
              | nil => exact hfeed (by simpa using hfeed₁)
              | cons e g₃ =>
                  obtain ⟨rfl, _⟩ := List.cons.inj hcode
                  have hblank := List.all_eq_true.mp hg₁ e (by simp)
                  rw [hc] at hblank
                  cases hblank
      · exact absurd (List.mem_append_left _ hfeed₁) hfeed

/-- A token on one line stays. -/
theorem token (h : Respaced (w ++ s) t) (hw : OneLine w) : ∃ t', t = w ++ t' ∧ Respaced s t' :=
  h.append hw.feed (.inl hw.last)

/-- The end of a line, with blanks that may change behind it. -/
theorem line {e : Char} {u : List Char} (h : Respaced (w ++ e :: u) t) (hw : w.any isLineBreak = false)
    (he : isLineBreak e = true) : ∃ w' e' k k' s' t', t = w' ++ e' :: (k' ++ t') ∧ w'.any isLineBreak = false ∧
      isLineBreak e' = true ∧ u = k ++ s' ∧ Text.allBlank k = true ∧ Text.allBlank k' = true ∧ Respaced s' t' := by
  generalize htext : w ++ e :: u = text at h
  induction h generalizing w with
  | nil => simp at htext
  | @char d s' t' h ih =>
      cases w with
      | nil =>
          obtain ⟨rfl, rfl⟩ := List.cons.inj htext
          exact ⟨[], e, [], [], u, t', rfl, rfl, he, rfl, rfl, rfl, h⟩
      | cons c w =>
          obtain ⟨rfl, htail⟩ := List.cons.inj htext
          rw [List.any_cons, Bool.or_eq_false_iff] at hw
          obtain ⟨w', e', k, k', s'', t'', rfl, hw', he', hu, hk, hk', hrest⟩ := ih hw.2 htail
          refine ⟨c :: w', e', k, k', s'', t'', rfl, ?_, he', hu, hk, hk', hrest⟩
          rw [List.any_cons, hw.1, hw', Bool.or_false]
  | @gap g₁ g₂ s' t' hg₁ hg₂ hfeed₁ hfeed₂ h ih =>
      -- The blanks hold a line feed, so the line ends among them.
      rcases List.append_eq_append_iff.mp htext with ⟨g₃, rfl, hrest⟩ | ⟨g₃, rfl, _⟩
      · cases g₃ with
        | nil =>
            rw [List.append_nil] at hfeed₁
            exact absurd rfl (List.any_eq_false.mp hw _ hfeed₁)
        | cons d k =>
            obtain ⟨rfl, rfl⟩ := List.cons.inj hrest
            obtain ⟨w', e', k', rfl, hw', he'⟩ := exists_lineEnd hfeed₂
            rw [Text.allBlank, List.all_append, List.all_cons, Bool.and_eq_true, Bool.and_eq_true] at hg₁ hg₂
            exact ⟨w', e', k, k', s', t', by simp, hw', he', rfl, hg₁.2.2, hg₂.2.2, h⟩
      · rw [List.any_append, Bool.or_eq_false_iff] at hw
        exact absurd rfl (List.any_eq_false.mp hw.1 _ hfeed₁)

/-- The end of a comment that may go over lines. -/
theorem block {u : List Char} (h : Respaced (w ++ '*' :: '/' :: u) t) (hw : ¬ ['*', '/'] <:+: w) :
    ∃ w' t', t = w' ++ '*' :: '/' :: t' ∧ (w'.head? = some '/' → w.head? = some '/') ∧ ¬ ['*', '/'] <:+: w' ∧
      Respaced u t' := by
  generalize htext : w ++ '*' :: '/' :: u = text at h
  induction h generalizing w with
  | nil => simp at htext
  | @char d s' t' h ih =>
      cases w with
      | nil =>
          obtain ⟨rfl, rfl⟩ := List.cons.inj htext
          obtain ⟨t'', rfl, hrest⟩ := h.cons (by decide)
          exact ⟨[], t'', rfl, id, hw, hrest⟩
      | cons c w =>
          obtain ⟨rfl, htail⟩ := List.cons.inj htext
          rw [List.infix_cons_iff, not_or] at hw
          obtain ⟨w', t'', rfl, hhead, hw', hrest⟩ := ih hw.2 htail
          refine ⟨c :: w', t'', rfl, id, ?_, hrest⟩
          rw [List.infix_cons_iff, not_or]
          refine ⟨?_, hw'⟩
          intro hprefix
          obtain ⟨rfl, hslash⟩ := List.cons_prefix_cons.mp hprefix
          obtain ⟨k, rfl⟩ := hslash
          obtain ⟨k', rfl⟩ : ∃ k', w = '/' :: k' := by
            cases w with
            | nil => exact absurd (hhead rfl) (by simp)
            | cons e k' => exact ⟨k', by rw [Option.some.inj (hhead rfl)]⟩
          exact hw.1 ⟨k', rfl⟩
  | @gap g₁ g₂ s' t' hg₁ hg₂ hfeed₁ hfeed₂ h ih =>
      -- The blanks end in front of the star.
      obtain ⟨w, rfl, htail⟩ : ∃ w₁, w = g₁ ++ w₁ ∧ w₁ ++ '*' :: '/' :: u = s' := by
        rcases List.append_eq_append_iff.mp htext with ⟨g₃, rfl, hrest⟩ | ⟨w₁, rfl, hrest⟩
        · cases g₃ with
          | nil => exact ⟨[], by simp, by simpa using hrest⟩
          | cons e g₃ =>
              obtain ⟨rfl, _⟩ := List.cons.inj hrest
              exact absurd (List.all_eq_true.mp hg₁ '*' (by simp)) (by decide)
        · exact ⟨w₁, rfl, hrest.symm⟩
      obtain ⟨w', t'', rfl, _, hw', hrest⟩ :=
        ih (fun hcontained => hw (hcontained.trans (List.suffix_append g₁ w).isInfix)) htail
      refine ⟨g₂ ++ w', t'', by simp, ?_, not_infix_blanks hg₂ hw', hrest⟩
      intro hhead
      cases g₂ with
      | nil => cases hfeed₂
      | cons d g₂ =>
          rw [Text.allBlank, List.all_cons, Bool.and_eq_true] at hg₂
          obtain rfl := Option.some.inj hhead
          exact absurd hg₂.1 (by decide)

theorem gapped_behind (h : Respaced s t) {k k' u : List Char} (hg : IsGap g) (hu : StartsCode u)
    (hk : Text.allBlank k = true) (hk' : Text.allBlank k' = true) (htext : k ++ s = g ++ u) :
    ∃ g' t', k' ++ t = g' ++ t' ∧ IsGap g' ∧ ((k ≠ [] → k' ≠ []) → k' ≠ [] ∨ g ≠ [] → g' ≠ []) ∧ Respaced u t' := by
  induction hg generalizing k k' s t with
  | nil =>
      obtain ⟨c, tail, rfl, hc⟩ := hu
      cases k with
      | nil =>
          obtain rfl : s = c :: tail := htext
          exact ⟨k', t, rfl, isGap_blank hk', fun _ hsome => hsome.resolve_right (· rfl), h⟩
      | cons d k =>
          obtain ⟨rfl, _⟩ := List.cons.inj htext
          rw [Text.allBlank, List.all_cons, hc] at hk
          cases hk
  | @blank c g hc _ ih =>
      cases k with
      | cons d k =>
          obtain ⟨rfl, htail⟩ := List.cons.inj htext
          rw [Text.allBlank, List.all_cons, Bool.and_eq_true] at hk
          obtain ⟨g', t', heq, hg', hne, hrest⟩ := ih h hk.2 hk' htail
          refine ⟨g', t', heq, hg', fun hsome _ => ?_, hrest⟩
          have hk'' := hsome (List.cons_ne_nil d k)
          exact hne (fun _ => hk'') (.inl hk'')
      | nil =>
          rw [List.nil_append] at htext
          cases h with
          | nil => cases htext
          | char d h =>
              obtain ⟨rfl, rfl⟩ := List.cons.inj htext
              obtain ⟨g', t', rfl, hg', -, hrest⟩ := @ih _ _ h [] [] rfl rfl rfl
              exact ⟨k' ++ d :: g', t', by simp, (isGap_blank hk').append (.blank hc hg'), fun _ _ => by simp, hrest⟩
          | @gap g₁ g₂ s' t' hg₁ hg₂ hfeed₁ hfeed₂ h =>
              cases g₁ with
              | nil => cases hfeed₁
              | cons d g₁ =>
                  obtain ⟨rfl, htail⟩ := List.cons.inj htext
                  rw [Text.allBlank, List.all_cons, Bool.and_eq_true] at hg₁
                  have hsome : k' ++ g₂ ≠ [] := fun heq => by
                    rw [(List.append_eq_nil_iff.mp heq).2] at hfeed₂
                    cases hfeed₂
                  obtain ⟨g', t'', heq, hg', hne, hrest⟩ := @ih _ _ h g₁ (k' ++ g₂) hg₁.2
                    (by rw [Text.allBlank_append, hk', hg₂]; rfl) htail
                  exact ⟨g', t'', by rw [← heq, List.append_assoc], hg',
                    fun _ _ => hne (fun _ => hsome) (.inl hsome), hrest⟩
  | @line w g e hw he _ ih =>
      obtain rfl : k = [] := by
        cases k with
        | nil => rfl
        | cons d k =>
            obtain ⟨rfl, _⟩ := List.cons.inj htext
            cases hk
      simp only [List.nil_append, List.cons_append, List.append_assoc] at htext
      subst htext
      obtain ⟨t₁, rfl, ht₁⟩ := h.cons (by decide)
      obtain ⟨t₂, rfl, ht₂⟩ := ht₁.cons (by decide)
      obtain ⟨w', e', k, k'', s', t', rfl, hw', he', hu', hk, hk'', hrest⟩ := ht₂.line hw he
      obtain ⟨g', t'', heq, hg', -, hlast⟩ := ih hrest hk hk'' hu'.symm
      refine ⟨k' ++ '/' :: '/' :: (w' ++ e' :: g'), t'', ?_, (isGap_blank hk').append (.line hw' he' hg'),
        fun _ _ => by simp, hlast⟩
      simp [heq]
  | @block w g hw _ ih =>
      obtain rfl : k = [] := by
        cases k with
        | nil => rfl
        | cons d k =>
            obtain ⟨rfl, _⟩ := List.cons.inj htext
            cases hk
      simp only [List.nil_append, List.cons_append, List.append_assoc] at htext
      subst htext
      obtain ⟨t₁, rfl, ht₁⟩ := h.cons (by decide)
      obtain ⟨t₂, rfl, ht₂⟩ := ht₁.cons (by decide)
      obtain ⟨w', t', rfl, _, hw', hrest⟩ := ht₂.block hw
      obtain ⟨g', t'', rfl, hg', -, hlast⟩ := @ih _ _ hrest [] [] rfl rfl rfl
      exact ⟨k' ++ '/' :: '*' :: (w' ++ '*' :: '/' :: g'), t'', by simp, (isGap_blank hk').append (.block hw' hg'),
        fun _ _ => by simp, hlast⟩

/-- Gaps in front of code become gaps, and the same ones if they hold no line feed. -/
theorem gapped (h : Respaced (g ++ s) t) (hg : IsGap g) (hs : StartsCode s) :
    ∃ g' t', t = g' ++ t' ∧ IsGap g' ∧ ('\n' ∉ g → g' = g) ∧ Respaced s t' := by
  by_cases hfeed : '\n' ∈ g
  · obtain ⟨g', t', heq, hg', -, hrest⟩ := @gapped_behind g (g ++ s) t h [] [] s hg hs rfl rfl rfl
    exact ⟨g', t', heq, hg', absurd hfeed, hrest⟩
  · obtain ⟨t', rfl, hrest⟩ := h.append hfeed (.inr hs)
    exact ⟨g, t', rfl, hg, fun _ => rfl, hrest⟩

/-- Gaps that set words apart stay such gaps. -/
theorem spaced (h : Respaced (g ++ s) t) (hg : IsSpace g) (hs : StartsCode s) :
    ∃ g' t', t = g' ++ t' ∧ IsSpace g' ∧ Respaced s t' := by
  obtain ⟨g', t', heq, hg', hne, hrest⟩ := @gapped_behind g (g ++ s) t h [] [] s hg.gap hs rfl rfl rfl
  exact ⟨g', t', heq, ⟨hg', hne id (.inr hg.ne_nil)⟩, hrest⟩

end Respaced

/-! ## Tokens -/

theorem oneLine_of_code (h : ∀ c ∈ w, isBlank c = false) : OneLine w where
  feed := fun hmem => absurd (h _ hmem) (by decide)
  last := fun c hc => h c (List.mem_of_getLast? hc)

theorem IsWord.oneLine (h : IsWord w) : OneLine w := by
  refine oneLine_of_code fun c hc => ?_
  obtain ⟨d, tail, rfl, hstart, htail⟩ := h
  apply isBlank_of_part
  rcases List.mem_cons.mp hc with rfl | hc
  · exact isIdentifierPart_of_start hstart
  · exact List.all_eq_true.mp htail c hc

theorem oneLine_written {quote : Char} (hquote : IsQuote quote) (v : List Char) : OneLine (written quote v) where
  feed := by
    have hchar : ∀ c, '\n' ∉ writtenChar quote c := by
      intro c
      rw [writtenChar]
      grind [IsQuote]
    rw [written, List.cons_append, List.mem_cons, List.mem_append, List.mem_flatMap, List.mem_singleton]
    rintro (hfirst | ⟨c, _, hc⟩ | hlast)
    · rcases hquote with rfl | rfl <;> cases hfirst
    · exact hchar c hc
    · rcases hquote with rfl | rfl <;> cases hlast
  last := by
    intro c hc
    rw [written, List.getLast?_concat] at hc
    obtain rfl := Option.some.inj hc
    rcases hquote with rfl | rfl
    · decide
    · decide

theorem feed_not_mem_of_line (h : g.any isLineBreak = false) : '\n' ∉ g := by
  intro hmem
  have hbreak := List.any_eq_false.mp h _ hmem
  exact absurd rfl hbreak

theorem isBlank_of_digits (h : w.all Char.isDigit = true) : ∀ c ∈ w, isBlank c = false :=
  fun c hc => isBlank_digit (List.all_eq_true.mp h c hc)

theorem IsNumber.oneLine (h : IsNumber w) : OneLine w := by
  refine oneLine_of_code ?_
  cases h with
  | whole hw => exact isBlank_of_digits hw.all_isDigit
  | fraction hw _ htail =>
      rw [List.forall_mem_append, List.forall_mem_cons]
      exact ⟨isBlank_of_digits hw.all_isDigit, by decide, isBlank_of_digits htail⟩

theorem IsMemberKey.oneLine {shape : Shape} (h : IsMemberKey w shape) : OneLine w := by
  cases h with
  | word hw => exact hw.oneLine
  | string hquote v => exact oneLine_written hquote v

theorem isBlank_tagChar (h : isIdentifierPart c = true ∨ c = '-') : isBlank c = false := by
  rcases h with h | rfl
  · exact isBlank_of_part h
  · decide

theorem IsTagWord.isBlank (h : IsTagWord w) : ∀ c ∈ w, isBlank c = false := by
  obtain ⟨hstart, htail⟩ := h
  rw [List.forall_mem_cons]
  exact ⟨isBlank_tagChar (.inl (isIdentifierPart_of_start hstart)), fun d hd => isBlank_tagChar (htail d hd)⟩

theorem IsTagName.oneLine (h : IsTagName w) : OneLine w := by
  refine oneLine_of_code ?_
  induction h with
  | word hw => exact hw.isBlank
  | member hw _ ih =>
      rw [List.forall_mem_append, List.forall_mem_cons]
      exact ⟨hw.isBlank, by decide, ih⟩

theorem IsTagWord.startsCode (h : IsTagWord w) : StartsCode w := by
  obtain ⟨hstart, _⟩ := h
  exact ⟨_, _, rfl, isBlank_tagChar (.inl (isIdentifierPart_of_start hstart))⟩

/-! ## The syntax -/

/-- What has to stand behind a text of a class: the blanks at the end of a list and the text in front of a closing
tag go up to code. -/
def Category.Stops : Category → List Char → Prop
  | list _ _, rest => StartsCode rest
  | children, rest => StartsCode rest
  | _, _ => True

theorem Core.no_children (h : Core tags .children [] shapes) : shapes = [] := by
  generalize htext : [] = text at h
  cases h with
  | noChildren => rfl
  | textChild ht => exact absurd (List.append_eq_nil_iff.mp htext.symm).1 ht.ne_nil
  | tagChild h => exact absurd (List.append_eq_nil_iff.mp htext.symm).1 (List.ne_nil_of_length_pos (h.length_pos rfl))
  | valueChild | commentChild => cases htext

/-- Text between tags is followed by no more text. -/
theorem Core.ends_text {t : List Char} (h : Core tags .children text shapes) (h' : Core tags .children s shapes)
    (hends : ∀ c ∈ text.head?, c = '<' ∨ c = '\x7b') (hhead : (s ++ t).head? = (text ++ rest).head?) :
    ∀ c ∈ s.head?, c = '<' ∨ c = '\x7b' := by
  intro c hc
  cases text with
  | nil =>
      obtain rfl := h.no_children
      cases h'
      cases hc
  | cons d text =>
      rw [List.head?_append, hc, Option.some_or] at hhead
      exact hends c hhead.symm

/-- A text of a class is one with other blanks. -/
theorem Core.respaced (h : Core tags category text shapes) (hrest : category.Stops rest)
    (ht : Respaced (text ++ rest) t) :
    ∃ text' t', t = text' ++ t' ∧ Core tags category text' shapes ∧ Respaced rest t' := by
  induction h generalizing rest t with
  | name hw hname hmodifier =>
      obtain ⟨t', rfl, hrest⟩ := ht.token hw.oneLine
      exact ⟨_, t', rfl, .name hw hname hmodifier, hrest⟩
  | literal hw hmem =>
      obtain ⟨t', rfl, hrest⟩ := ht.token hw.oneLine
      exact ⟨_, t', rfl, .literal hw hmem, hrest⟩
  | string hquote v =>
      obtain ⟨t', rfl, hrest⟩ := ht.token (oneLine_written hquote v)
      exact ⟨_, t', rfl, .string hquote v, hrest⟩
  | paren _ hne ih =>
      obtain ⟨t₁, rfl, ht₁⟩ := ht.cons (by decide)
      obtain ⟨inner, t₂, rfl, hinner, ht₂⟩ := ih (startsCode_cons (c := ')') (by decide) rest) (by simpa using ht₁)
      obtain ⟨t₃, rfl, ht₃⟩ := ht₂.cons (by decide)
      exact ⟨'(' :: (inner ++ [')']), t₃, by simp, .paren hinner hne, ht₃⟩
  | array _ ih =>
      obtain ⟨t₁, rfl, ht₁⟩ := ht.cons (by decide)
      obtain ⟨inner, t₂, rfl, hinner, ht₂⟩ := ih (startsCode_cons (c := ']') (by decide) rest) (by simpa using ht₁)
      obtain ⟨t₃, rfl, ht₃⟩ := ht₂.cons (by decide)
      exact ⟨'[' :: (inner ++ [']']), t₃, by simp, .array hinner, ht₃⟩
  | object _ ih =>
      obtain ⟨t₁, rfl, ht₁⟩ := ht.cons (by decide)
      obtain ⟨inner, t₂, rfl, hinner, ht₂⟩ := ih (startsCode_cons (c := '\x7d') (by decide) rest) (by simpa using ht₁)
      obtain ⟨t₃, rfl, ht₃⟩ := ht₂.cons (by decide)
      exact ⟨'\x7b' :: (inner ++ ['\x7d']), t₃, by simp, .object hinner, ht₃⟩
  | nothing => exact ⟨[], t, rfl, .nothing, ht⟩
  | memberStep hg hg' hw _ ih =>
      simp only [List.append_assoc, List.cons_append] at ht
      obtain ⟨g₁, t₁, rfl, hg₁, -, ht₁⟩ := ht.gapped hg (startsCode_cons (by decide) _)
      obtain ⟨t₂, rfl, ht₂⟩ := ht₁.cons (by decide)
      obtain ⟨g₂, t₃, rfl, hg₂, -, ht₃⟩ := ht₂.gapped hg' (hw.startsCode.append _)
      obtain ⟨t₄, rfl, ht₄⟩ := ht₃.token hw.oneLine
      obtain ⟨rest', t₅, rfl, hrest', ht₅⟩ := ih trivial ht₄
      exact ⟨_, t₅, by simp, .memberStep hg₁ hg₂ hw hrest', ht₅⟩
  | indexStep hg hg₁ htext hg₂ _ ih ih' =>
      simp only [List.append_assoc, List.cons_append] at ht
      obtain ⟨g, t₁, rfl, hg, -, ht₁⟩ := ht.gapped hg (startsCode_cons (by decide) _)
      obtain ⟨t₂, rfl, ht₂⟩ := ht₁.cons (by decide)
      obtain ⟨g₁, t₃, rfl, hg₁, -, ht₃⟩ := ht₂.gapped hg₁ (htext.startsCode_one.append _)
      obtain ⟨text', t₄, rfl, htext', ht₄⟩ := ih trivial ht₃
      obtain ⟨g₂, t₅, rfl, hg₂, -, ht₅⟩ := ht₄.gapped hg₂ (startsCode_cons (by decide) _)
      obtain ⟨t₆, rfl, ht₆⟩ := ht₅.cons (by decide)
      obtain ⟨rest', t₇, rfl, hrest', ht₇⟩ := ih' trivial ht₆
      exact ⟨_, t₇, by simp, .indexStep hg hg₁ htext' hg₂ hrest', ht₇⟩
  | callStep hg _ _ ih ih' =>
      simp only [List.append_assoc, List.cons_append] at ht
      obtain ⟨g, t₁, rfl, hg, -, ht₁⟩ := ht.gapped hg (startsCode_cons (by decide) _)
      obtain ⟨t₂, rfl, ht₂⟩ := ht₁.cons (by decide)
      obtain ⟨inner, t₃, rfl, hinner, ht₃⟩ := ih (startsCode_cons (by decide) _) ht₂
      obtain ⟨t₄, rfl, ht₄⟩ := ht₃.cons (by decide)
      obtain ⟨rest', t₅, rfl, hrest', ht₅⟩ := ih' trivial ht₄
      exact ⟨_, t₅, by simp, .callStep hg hinner hrest', ht₅⟩
  | operand _ _ ih ih' =>
      rw [List.append_assoc] at ht
      obtain ⟨text', t₁, rfl, htext', ht₁⟩ := ih trivial ht
      obtain ⟨rest', t₂, rfl, hrest', ht₂⟩ := ih' trivial ht₁
      exact ⟨_, t₂, by simp, .operand htext' hrest', ht₂⟩
  | number hw =>
      obtain ⟨t', rfl, hrest⟩ := ht.token hw.oneLine
      exact ⟨_, t', rfl, .number hw, hrest⟩
  | function _ hdistinct hg hline hg' hbody hbrace ih ih' =>
      simp only [List.append_assoc, List.cons_append] at ht
      obtain ⟨t₁, rfl, ht₁⟩ := ht.cons (by decide)
      obtain ⟨params, t₂, rfl, hparams, ht₂⟩ := ih (startsCode_cons (by decide) _) ht₁
      obtain ⟨t₃, rfl, ht₃⟩ := ht₂.cons (by decide)
      obtain ⟨g, t₄, rfl, -, hsame, ht₄⟩ := ht₃.gapped hg (startsCode_cons (by decide) _)
      obtain rfl := hsame (feed_not_mem_of_line hline)
      obtain ⟨t₅, rfl, ht₅⟩ := ht₄.cons (by decide)
      obtain ⟨t₆, rfl, ht₆⟩ := ht₅.cons (by decide)
      obtain ⟨g', t₇, rfl, hg', -, ht₇⟩ := ht₆.gapped hg' (hbody.startsCode_one.append _)
      have hhead := ht₇.head? (hbody.startsCode_one.append _)
      obtain ⟨body, t₈, rfl, hbody', ht₈⟩ := ih' trivial ht₇
      rw [hbody'.startsCode_one.head?_append, hbody.startsCode_one.head?_append] at hhead
      exact ⟨_, t₈, by simp, .function hparams hdistinct hg hline hg' hbody' (hhead ▸ hbrace), ht₈⟩
  | functionOf hw hname hmodifier hbinding hg hline hg' hbody hbrace ih =>
      simp only [List.append_assoc, List.cons_append] at ht
      obtain ⟨t₁, rfl, ht₁⟩ := ht.token hw.oneLine
      obtain ⟨g, t₂, rfl, -, hsame, ht₂⟩ := ht₁.gapped hg (startsCode_cons (by decide) _)
      obtain rfl := hsame (feed_not_mem_of_line hline)
      obtain ⟨t₃, rfl, ht₃⟩ := ht₂.cons (by decide)
      obtain ⟨t₄, rfl, ht₄⟩ := ht₃.cons (by decide)
      obtain ⟨g', t₅, rfl, hg', -, ht₅⟩ := ht₄.gapped hg' (hbody.startsCode_one.append _)
      have hhead := ht₅.head? (hbody.startsCode_one.append _)
      obtain ⟨body, t₆, rfl, hbody', ht₆⟩ := ih trivial ht₅
      rw [hbody'.startsCode_one.head?_append, hbody.startsCode_one.head?_append] at hhead
      exact ⟨_, t₆, by simp, .functionOf hw hname hmodifier hbinding hg hline hg' hbody' (hhead ▸ hbrace), ht₆⟩
  | tagged htags _ ih =>
      obtain ⟨text', t₁, rfl, htext', ht₁⟩ := ih trivial ht
      exact ⟨_, t₁, rfl, .tagged htags htext', ht₁⟩
  | lone hw _ hg ih =>
      simp only [List.append_assoc, List.cons_append, List.nil_append] at ht
      obtain ⟨t₁, rfl, ht₁⟩ := ht.cons (by decide)
      obtain ⟨t₂, rfl, ht₂⟩ := ht₁.token hw.oneLine
      obtain ⟨attributes, t₃, rfl, hattributes, ht₃⟩ := ih trivial ht₂
      obtain ⟨g, t₄, rfl, hg, -, ht₄⟩ := ht₃.gapped hg (startsCode_cons (by decide) _)
      obtain ⟨t₅, rfl, ht₅⟩ := ht₄.cons (by decide)
      obtain ⟨t₆, rfl, ht₆⟩ := ht₅.cons (by decide)
      exact ⟨_, t₆, by simp, .lone hw hattributes hg, ht₆⟩
  | pair hw _ hg _ hg' ih ih' =>
      simp only [List.append_assoc, List.cons_append, List.nil_append] at ht
      obtain ⟨t₁, rfl, ht₁⟩ := ht.cons (by decide)
      obtain ⟨t₂, rfl, ht₂⟩ := ht₁.token hw.oneLine
      obtain ⟨attributes, t₃, rfl, hattributes, ht₃⟩ := ih trivial ht₂
      obtain ⟨g, t₄, rfl, hg, -, ht₄⟩ := ht₃.gapped hg (startsCode_cons (by decide) _)
      obtain ⟨t₅, rfl, ht₅⟩ := ht₄.cons (by decide)
      obtain ⟨inner, t₆, rfl, hinner, ht₆⟩ := ih' (startsCode_cons (by decide) _) ht₅
      obtain ⟨t₇, rfl, ht₇⟩ := ht₆.token (w := ['<', '/']) (oneLine_of_code (by decide))
      obtain ⟨t₈, rfl, ht₈⟩ := ht₇.token hw.oneLine
      obtain ⟨g', t₉, rfl, hg', -, ht₉⟩ := ht₈.gapped hg' (startsCode_cons (by decide) _)
      obtain ⟨t₁₀, rfl, ht₁₀⟩ := ht₉.cons (by decide)
      exact ⟨_, t₁₀, by simp, .pair hw hattributes hg hinner hg', ht₁₀⟩
  | fragment _ ih =>
      simp only [List.append_assoc, List.cons_append, List.nil_append] at ht
      obtain ⟨t₁, rfl, ht₁⟩ := ht.token (w := ['<', '>']) (oneLine_of_code (by decide))
      obtain ⟨inner, t₂, rfl, hinner, ht₂⟩ := ih (startsCode_cons (by decide) _) ht₁
      obtain ⟨t₃, rfl, ht₃⟩ := ht₂.token (w := ['<', '/', '>']) (oneLine_of_code (by decide))
      exact ⟨_, t₃, by simp, .fragment hinner, ht₃⟩
  | noAttributes => exact ⟨[], t, rfl, .noAttributes, ht⟩
  | flagAttribute hg hw _ ih =>
      simp only [List.append_assoc] at ht
      obtain ⟨g, t₁, rfl, hg, ht₁⟩ := ht.spaced hg (hw.startsCode.append _)
      obtain ⟨t₂, rfl, ht₂⟩ := ht₁.token (IsTagName.word hw).oneLine
      obtain ⟨rest', t₃, rfl, hrest', ht₃⟩ := ih trivial ht₂
      exact ⟨_, t₃, by simp, .flagAttribute hg hw hrest', ht₃⟩
  | textAttribute hg hw hv _ ih =>
      simp only [List.append_assoc, List.cons_append] at ht
      obtain ⟨g, t₁, rfl, hg, ht₁⟩ := ht.spaced hg (hw.startsCode.append _)
      obtain ⟨t₂, rfl, ht₂⟩ := ht₁.token (IsTagName.word hw).oneLine
      obtain ⟨t₃, rfl, ht₃⟩ := ht₂.cons (by decide)
      obtain ⟨t₄, rfl, ht₄⟩ := ht₃.cons hv.isQuote.isBlank
      obtain ⟨t₅, rfl, ht₅⟩ := ht₄.append (fun hmem => (hv.plain _ hmem).2 rfl)
        (.inr (startsCode_cons hv.isQuote.isBlank _))
      obtain ⟨t₆, rfl, ht₆⟩ := ht₅.cons hv.isQuote.isBlank
      obtain ⟨rest', t₇, rfl, hrest', ht₇⟩ := ih trivial ht₆
      exact ⟨_, t₇, by simp, .textAttribute hg hw hv hrest', ht₇⟩
  | valueAttribute hg hw hg₁ htext hg₂ _ ih ih' =>
      simp only [List.append_assoc, List.cons_append] at ht
      obtain ⟨g, t₁, rfl, hg, ht₁⟩ := ht.spaced hg (hw.startsCode.append _)
      obtain ⟨t₂, rfl, ht₂⟩ := ht₁.token (IsTagName.word hw).oneLine
      obtain ⟨t₃, rfl, ht₃⟩ := ht₂.token (w := ['=', '\x7b']) (oneLine_of_code (by decide))
      obtain ⟨g₁, t₄, rfl, hg₁, -, ht₄⟩ := ht₃.gapped hg₁ (htext.startsCode_one.append _)
      obtain ⟨text', t₅, rfl, htext', ht₅⟩ := ih trivial ht₄
      obtain ⟨g₂, t₆, rfl, hg₂, -, ht₆⟩ := ht₅.gapped hg₂ (startsCode_cons (by decide) _)
      obtain ⟨t₇, rfl, ht₇⟩ := ht₆.cons (by decide)
      obtain ⟨rest', t₈, rfl, hrest', ht₈⟩ := ih' trivial ht₇
      exact ⟨_, t₈, by simp, .valueAttribute hg hw hg₁ htext' hg₂ hrest', ht₈⟩
  | spreadAttribute hg hg₀ hg₁ htext hg₂ _ ih ih' =>
      simp only [List.append_assoc, List.cons_append] at ht
      obtain ⟨g, t₁, rfl, hg, ht₁⟩ := ht.spaced hg (startsCode_cons (by decide) _)
      obtain ⟨t₂, rfl, ht₂⟩ := ht₁.cons (by decide)
      obtain ⟨g₀, t₃, rfl, hg₀, -, ht₃⟩ := ht₂.gapped hg₀ (startsCode_cons (by decide) _)
      obtain ⟨t₄, rfl, ht₄⟩ := ht₃.token (w := ['.', '.', '.']) (oneLine_of_code (by decide))
      obtain ⟨g₁, t₅, rfl, hg₁, -, ht₅⟩ := ht₄.gapped hg₁ (htext.startsCode_one.append _)
      obtain ⟨text', t₆, rfl, htext', ht₆⟩ := ih trivial ht₅
      obtain ⟨g₂, t₇, rfl, hg₂, -, ht₇⟩ := ht₆.gapped hg₂ (startsCode_cons (by decide) _)
      obtain ⟨t₈, rfl, ht₈⟩ := ht₇.cons (by decide)
      obtain ⟨rest', t₉, rfl, hrest', ht₉⟩ := ih' trivial ht₈
      exact ⟨_, t₉, by simp, .spreadAttribute hg hg₀ hg₁ htext' hg₂ hrest', ht₉⟩
  | noChildren => exact ⟨[], t, rfl, .noChildren, ht⟩
  | @textChild piece tail shapes hpiece htail hends ih =>
      rw [List.append_assoc] at ht
      -- Behind the text stands a tag or a brace, here or behind the children.
      have hcode : StartsCode (tail ++ rest) := by
        cases tail with
        | nil => exact hrest
        | cons d tail =>
            refine startsCode_cons ?_ _
            rcases hends d rfl with rfl | rfl
            · decide
            · decide
      obtain ⟨t₁, rfl, ht₁⟩ := ht.append (fun hmem => hpiece.plain _ hmem (by simp)) (.inr hcode)
      have hhead := ht₁.head? hcode
      obtain ⟨tail', t₂, rfl, htail', ht₂⟩ := ih hrest ht₁
      exact ⟨_, t₂, by simp, .textChild hpiece htail' (htail.ends_text htail' hends hhead), ht₂⟩
  | valueChild hg htext hg' _ ih ih' =>
      simp only [List.append_assoc, List.cons_append] at ht
      obtain ⟨t₁, rfl, ht₁⟩ := ht.cons (by decide)
      obtain ⟨g, t₂, rfl, hg, -, ht₂⟩ := ht₁.gapped hg (htext.startsCode_one.append _)
      obtain ⟨text', t₃, rfl, htext', ht₃⟩ := ih trivial ht₂
      obtain ⟨g', t₄, rfl, hg', -, ht₄⟩ := ht₃.gapped hg' (startsCode_cons (by decide) _)
      obtain ⟨t₅, rfl, ht₅⟩ := ht₄.cons (by decide)
      obtain ⟨rest', t₆, rfl, hrest', ht₆⟩ := ih' hrest ht₅
      exact ⟨_, t₆, by simp, .valueChild hg htext' hg' hrest', ht₆⟩
  | commentChild hg _ ih =>
      simp only [List.append_assoc, List.cons_append] at ht
      obtain ⟨t₁, rfl, ht₁⟩ := ht.cons (by decide)
      obtain ⟨g, t₂, rfl, hg, -, ht₂⟩ := ht₁.gapped hg (startsCode_cons (by decide) _)
      obtain ⟨t₃, rfl, ht₃⟩ := ht₂.cons (by decide)
      obtain ⟨rest', t₄, rfl, hrest', ht₄⟩ := ih hrest ht₃
      exact ⟨_, t₄, by simp, .commentChild hg hrest', ht₄⟩
  | tagChild _ _ ih ih' =>
      rw [List.append_assoc] at ht
      obtain ⟨text', t₁, rfl, htext', ht₁⟩ := ih trivial ht
      obtain ⟨rest', t₂, rfl, hrest', ht₂⟩ := ih' hrest ht₁
      exact ⟨_, t₂, by simp, .tagChild htext' hrest', ht₂⟩
  | element _ ih =>
      obtain ⟨text', t₁, rfl, htext', ht₁⟩ := ih trivial ht
      exact ⟨_, t₁, rfl, .element htext', ht₁⟩
  | spread hg htext ih =>
      simp only [List.append_assoc, List.cons_append] at ht
      obtain ⟨t₁, rfl, ht₁⟩ := ht.token (w := ['.', '.', '.']) (oneLine_of_code (by decide))
      obtain ⟨g, t₂, rfl, hg, -, ht₂⟩ := ht₁.gapped hg (htext.startsCode_one.append _)
      obtain ⟨text', t₃, rfl, htext', ht₃⟩ := ih trivial ht₂
      exact ⟨_, t₃, by simp, .spread hg htext', ht₃⟩
  | property hkey hg hg' htext ih =>
      simp only [List.append_assoc, List.cons_append] at ht
      obtain ⟨t₁, rfl, ht₁⟩ := ht.token hkey.oneLine
      obtain ⟨g, t₂, rfl, hg, -, ht₂⟩ := ht₁.gapped hg (startsCode_cons (by decide) _)
      obtain ⟨t₃, rfl, ht₃⟩ := ht₂.cons (by decide)
      obtain ⟨g', t₄, rfl, hg', -, ht₄⟩ := ht₃.gapped hg' (htext.startsCode_one.append _)
      obtain ⟨text', t₅, rfl, htext', ht₅⟩ := ih trivial ht₄
      exact ⟨_, t₅, by simp, .property hkey hg hg' htext', ht₅⟩
  | shorthand hw hname =>
      obtain ⟨t', rfl, hrest⟩ := ht.token hw.oneLine
      exact ⟨_, t', rfl, .shorthand hw hname, hrest⟩
  | memberSpread hg htext ih =>
      simp only [List.append_assoc, List.cons_append] at ht
      obtain ⟨t₁, rfl, ht₁⟩ := ht.token (w := ['.', '.', '.']) (oneLine_of_code (by decide))
      obtain ⟨g, t₂, rfl, hg, -, ht₂⟩ := ht₁.gapped hg (htext.startsCode_one.append _)
      obtain ⟨text', t₃, rfl, htext', ht₃⟩ := ih trivial ht₂
      exact ⟨_, t₃, by simp, .memberSpread hg htext', ht₃⟩
  | parameter hw hbinding =>
      obtain ⟨t', rfl, hrest⟩ := ht.token hw.oneLine
      exact ⟨_, t', rfl, .parameter hw hbinding, hrest⟩
  | nil hg =>
      obtain ⟨g, t₁, rfl, hg, -, ht₁⟩ := ht.gapped hg hrest
      exact ⟨g, t₁, rfl, .nil hg, ht₁⟩
  | last hg htext hg' ih =>
      simp only [List.append_assoc] at ht
      obtain ⟨g, t₁, rfl, hg, -, ht₁⟩ := ht.gapped hg (htext.startsCode_one.append _)
      obtain ⟨text', t₂, rfl, htext', ht₂⟩ := ih trivial ht₁
      obtain ⟨g', t₃, rfl, hg', -, ht₃⟩ := ht₂.gapped hg' hrest
      exact ⟨_, t₃, by simp, .last hg htext' hg', ht₃⟩
  | cons hg htext hg' _ ih ih' =>
      simp only [List.append_assoc, List.cons_append] at ht
      obtain ⟨g, t₁, rfl, hg, -, ht₁⟩ := ht.gapped hg (htext.startsCode_one.append _)
      obtain ⟨text', t₂, rfl, htext', ht₂⟩ := ih trivial ht₁
      obtain ⟨g', t₃, rfl, hg', -, ht₃⟩ := ht₂.gapped hg' (startsCode_cons (by decide) _)
      obtain ⟨t₄, rfl, ht₄⟩ := ht₃.cons (by decide)
      obtain ⟨rest', t₅, rfl, hrest', ht₅⟩ := ih' hrest ht₄
      exact ⟨_, t₅, by simp, .cons hg htext' hg' hrest', ht₅⟩

end Script
end StoryDocs
