import StoryDocs.Proofs.Markup.Prose

/-!
# Prose in its place

`Prose outside line value rest` says that the reader takes `value` as prose where `rest` comes behind it.
What stands behind can be exchanged for a text that is alike, and behind a line feed for any text without new
matches for runs of backticks.
-/

namespace StoryDocs
namespace Markup

open Text

/-! ## Starts of lines -/

/-- Whether a line starts behind a text; `line` tells whether one starts before it. -/
def lineAfter (line : Bool) (s : List Char) : Bool :=
  s.foldl (fun _ c => c == '\n') line

@[simp] theorem lineAfter_nil (line : Bool) : lineAfter line [] = line := rfl

theorem lineAfter_append (line : Bool) (s t : List Char) :
    lineAfter line (s ++ t) = lineAfter (lineAfter line s) t := by
  simp [lineAfter]

@[simp] theorem lineAfter_concat (line : Bool) (s : List Char) (c : Char) :
    lineAfter line (s ++ [c]) = (c == '\n') := by
  simp [lineAfter]

/-- The last character of a text tells whether a line starts behind it. -/
theorem lineAfter_of_ne_nil {s : List Char} (hs : s ≠ []) (line line' : Bool) :
    lineAfter line s = lineAfter line' s := by
  obtain ⟨body, c, rfl⟩ := (List.eq_nil_or_concat s).resolve_left hs
  simp

theorem lineAfter_of_feed {s : List Char} (hs : s.getLast? = some '\n') (line : Bool) :
    lineAfter line s = true := by
  obtain ⟨body, rfl⟩ := List.getLast?_eq_some_iff.mp hs
  simp

theorem eq_nil_or_feed_of_lineAfter {line : Bool} {s : List Char} (h : lineAfter line s = true) :
    s = [] ∨ s.getLast? = some '\n' := by
  rcases List.eq_nil_or_concat s with rfl | ⟨body, c, rfl⟩
  · exact .inl rfl
  · rw [List.concat_eq_append, lineAfter_concat, beq_iff_eq] at h
    exact .inr (by simp [h])

/-- What stands behind the last line feed of a text. -/
def lastLine (s : List Char) : List Char :=
  (s.reverse.takeWhile (· != '\n')).reverse

theorem lastLine_append {s t : List Char} (hs : s = [] ∨ s.getLast? = some '\n') (ht : '\n' ∉ t) :
    lastLine (s ++ t) = t := by
  have hstop : s.reverse.takeWhile (· != '\n') = [] := by
    rcases hs with rfl | hs
    · rfl
    · obtain ⟨body, rfl⟩ := List.getLast?_eq_some_iff.mp hs
      simp
  have hline : ∀ c ∈ t.reverse, (c != '\n') = true := by
    intro c hc
    have hne : c ≠ '\n' := by
      rintro rfl
      exact ht (List.mem_reverse.mp hc)
    simpa using hne
  rw [lastLine, List.reverse_append, List.takeWhile_append_of_pos hline, hstop]
  simp

/-! ## Lines that could open a fence -/

/-- The least number of backticks that open a fence. -/
def fenceTicks : List Char := ['\x60', '\x60', '\x60']

theorem startsWith_fenceTicks {s : List Char} (h : 3 ≤ (s.takeWhile (· == '\x60')).length) :
    startsWith fenceTicks s = true := by
  obtain ⟨a, b, c, rest, rfl⟩ : ∃ a b c rest, s = a :: b :: c :: rest := by
    have hle : 3 ≤ s.length := Nat.le_trans h (List.takeWhile_prefix _).length_le
    match s, hle with
    | a :: b :: c :: rest, _ => exact ⟨a, b, c, rest, rfl⟩
  by_cases ha : a = '\x60'
  · by_cases hb : b = '\x60'
    · by_cases hc : c = '\x60'
      · simp [startsWith, fenceTicks, dropLead?, ha, hb, hc]
      · simp [ha, hb, hc] at h
    · simp [ha, hb] at h
  · simp [ha] at h

/-- A line that does not start with three backticks opens a fence or not, whatever comes behind a character
that is no part of an opening. -/
theorem fence?_append {w s t : List Char} {c : Char} (hc : c ≠ '\x60' ∧ c ≠ '~' ∧ isIndent c = false)
    (hticks : startsWith fenceTicks (w.dropWhile isIndent) = false)
    (h : fence? (w ++ c :: s) = none) : fence? (w ++ c :: t) = none := by
  have hbody : ∀ x, (w ++ c :: x).dropWhile isIndent = w.dropWhile isIndent ++ c :: x := by
    intro x
    rw [List.dropWhile_append]
    split
    · rename_i hempty
      rw [List.isEmpty_iff.mp hempty]
      simp [hc.2.2]
    · rfl
  generalize hw : w.dropWhile isIndent = body at hbody hticks
  simp only [fence?, hbody] at h ⊢
  cases body with
  | nil => simp [hc.1, hc.2.1]
  | cons mark body =>
      simp only [List.cons_append] at h ⊢
      split at h
      · rename_i hmark
        rw [if_pos hmark]
      · rename_i hmark
        rw [if_neg hmark]
        -- The marks end before `c`.
        have hcount : ∀ x, ((mark :: (body ++ c :: x)).takeWhile (· == mark)).length =
            ((mark :: body).takeWhile (· == mark)).length := by
          intro x
          have hne : c ≠ mark := by
            rintro rfl
            simp [hc.1, hc.2.1] at hmark
          rw [← List.cons_append, List.takeWhile_append]
          split
          · rename_i hall
            rw [List.takeWhile_cons_of_neg (by simpa using hne), List.append_nil, hall]
          · rfl
        simp only [hcount] at h ⊢
        rw [if_neg]
        intro hopens
        simp only [Bool.and_eq_true, decide_eq_true_eq] at hopens
        by_cases htick : mark = '\x60'
        · subst htick
          rw [startsWith_fenceTicks hopens.1] at hticks
          cases hticks
        · have htilde : mark = '~' := by simpa [htick] using hmark
          subst htilde
          rw [if_pos (by simpa using hopens.1)] at h
          cases h

/-- A blank line opens no fence. -/
theorem fence?_eq_none_of_blank {line : List Char} (h : allBlank line = true) : fence? line = none := by
  unfold fence?
  dsimp only
  split
  · rfl
  · rename_i mark body hbody
    have hmark : isBlank mark = true := by
      refine List.all_eq_true.mp h mark ((List.dropWhile_suffix isIndent).subset ?_)
      rw [hbody]
      exact List.mem_cons_self
    have hne : mark ≠ '\x60' ∧ mark ≠ '~' := by
      constructor
      · rintro rfl
        cases hmark
      · rintro rfl
        cases hmark
    simp [hne]

/-! ## Prose -/

/-- The reader takes `value` as prose, piece by piece, where `rest` comes behind it. -/
inductive Prose (outside : Bool) : Bool → List Char → List Char → Prop
  | nil (line : Bool) (rest : List Char) : Prose outside line [] rest
  | cons {line : Bool} {u value whole rest : List Char} (hu : u ≠ [])
      (hpiece : Piece.ofText outside line (u ++ (value ++ rest)) = .ok (.prose u.length))
      (hrest : Prose outside (lineAfter line u) value rest) (hwhole : whole = u ++ value) :
      Prose outside line whole rest

/-- A fence that could open in the last line of `value` does not depend on what comes behind. -/
def Unfenced (line : Bool) (value rest : List Char) : Prop :=
  ∀ u w, value = u ++ w → lineAfter line u = true → '\n' ∉ w → w ≠ [] →
    rest = [] ∨ (startsWith fenceTicks (w.dropWhile isIndent) = false ∧
      (rest.head? = some '<' ∨ rest.head? = some '\x7b'))

namespace Unfenced

variable {line : Bool} {value rest : List Char}

theorem of_feed (h : value.getLast? = some '\n') : Unfenced line value rest := by
  intro u w hsplit _ hfeed hw
  obtain ⟨body, c, rfl⟩ := (List.eq_nil_or_concat w).resolve_left hw
  rw [hsplit, List.concat_eq_append, ← List.append_assoc, List.getLast?_concat] at h
  exact absurd (by simp [Option.some.inj h]) hfeed

theorem of_lastLine (hticks : startsWith fenceTicks ((lastLine value).dropWhile isIndent) = false)
    (hrest : rest.head? = some '<' ∨ rest.head? = some '\x7b') : Unfenced line value rest := by
  intro u w hsplit hline hfeed _
  rw [hsplit, lastLine_append (eq_nil_or_feed_of_lineAfter hline) hfeed] at hticks
  exact .inr ⟨hticks, hrest⟩

theorem of_nil : Unfenced line value [] :=
  fun _ _ _ _ _ _ => .inl rfl

theorem behind {u : List Char} (h : Unfenced line (u ++ value) rest) :
    Unfenced (lineAfter line u) value rest := by
  intro v w hsplit hline
  refine h (u ++ v) w (by rw [hsplit, List.append_assoc]) ?_
  rwa [lineAfter_append]

/-- No fence opens before a text that goes on alike. -/
theorem fence? {s t : List Char} (h : Unfenced true value s) (halike : Alike s t)
    (hvalue : value ≠ []) (hnone : Markup.fence? (restOfLine (value ++ s)) = none) :
    Markup.fence? (restOfLine (value ++ t)) = none := by
  by_cases hfeed : '\n' ∈ value
  · obtain ⟨u, v, rfl⟩ := List.append_of_mem hfeed
    rw [List.append_assoc, List.cons_append, restOfLine_append_feed] at hnone ⊢
    exact hnone
  · rcases h [] value rfl rfl hfeed hvalue with rfl | ⟨hticks, hhead⟩
    · rwa [halike.eq_nil_iff.mp rfl]
    · have hline : ∀ x, restOfLine (value ++ x) = value ++ restOfLine x := by
        intro x
        unfold restOfLine
        rw [List.takeWhile_append_of_pos]
        intro c hc
        have hne : c ≠ '\n' := fun heq => hfeed (heq ▸ hc)
        simpa using hne
      rcases halike.ahead.cases_head with ⟨rfl, rfl⟩ | ⟨c, s, t, rfl, rfl⟩
      · exact hnone
      · rw [hline] at hnone ⊢
        have hc : c ≠ '\x60' ∧ c ≠ '~' ∧ isIndent c = false ∧ c ≠ '\n' := by
          rcases hhead with hhead | hhead
          · rw [Option.some.inj hhead]
            decide
          · rw [Option.some.inj hhead]
            decide
        have hcons : ∀ x, restOfLine (c :: x) = c :: restOfLine x := by
          intro x
          simp [restOfLine, hc.2.2.2]
        rw [hcons] at hnone ⊢
        exact fence?_append ⟨hc.1, hc.2.1, hc.2.2.1⟩ hticks hnone

end Unfenced

namespace Prose

variable {outside line : Bool} {value rest s t : List Char}

theorem append {u : List Char} (h : Prose outside line u (value ++ rest))
    (hvalue : Prose outside (lineAfter line u) value rest) :
    Prose outside line (u ++ value) rest := by
  generalize hbehind : value ++ rest = behind at h
  induction h with
  | nil line _ => exact hvalue
  | @cons line u v whole behind hu hpiece _ hwhole ih =>
      subst hwhole hbehind
      refine .cons hu ?_ (ih (by rwa [← lineAfter_append]) rfl) (List.append_assoc ..)
      rwa [List.append_assoc]

/-- What comes behind prose can be exchanged for a text that goes on alike. -/
theorem alike (h : Prose outside line value s) (halike : Alike s t)
    (hfence : Unfenced line value s) : Prose outside line value t := by
  induction h with
  | nil line _ => exact .nil line t
  | @cons line u v whole s hu hpiece _ hwhole ih =>
      subst hwhole
      refine .cons hu (Piece.ofText_alike (halike.append v) hu (fun hline hnone => ?_) hpiece)
        (ih halike hfence.behind) rfl
      subst hline
      rw [← List.append_assoc] at hnone ⊢
      exact hfence.fence? halike (by simp [hu]) hnone

/-- Behind a line feed anything can come that has no new matches for runs of backticks. -/
theorem feed (h : Prose outside line value s) (hfeed : value.getLast? = some '\n') (hs : s ≠ [])
    (hruns : RunsKept s t) : Prose outside line value t := by
  induction h with
  | nil line _ => exact .nil line t
  | @cons line u v whole s hu hpiece _ hwhole ih =>
      subst hwhole
      by_cases hv : v = []
      · subst hv
        rw [List.append_nil] at hfeed ⊢
        refine .cons hu ?_ (.nil _ t) (List.append_nil u).symm
        -- The last piece is the line feed, with a backslash before it or not.
        have hends := Piece.ofText_ends hpiece (by simp [hu])
        rcases hends.last hs hfeed (by decide) (.inr rfl) with rfl | rfl
        · exact Piece.ofText_feed t
        · exact Piece.ofText_escaped '\n' t
      · have hfeed' : v.getLast? = some '\n' := by
          rwa [List.getLast?_append, Option.or_of_isSome (by simp [hv])] at hfeed
        refine .cons hu (Piece.ofText_alike (.of_feed hfeed' hruns) hu (fun _ hnone => ?_) hpiece)
          (ih hfeed' hs hruns) rfl
        obtain ⟨body, rfl⟩ := List.getLast?_eq_some_iff.mp hfeed'
        rw [List.append_assoc, ← List.append_assoc, List.singleton_append,
          restOfLine_append_feed] at hnone ⊢
        exact hnone

/-- No piece of prose goes on from a line feed into an indent with a bracket behind it. -/
theorem ofText_ne_into_indent {u w v : List Char} (hu : u.getLast? = some '\n') (hw : w ≠ [])
    (hindent : (w ++ v).all isIndent = true) (hrest : rest.head? = some '<') :
    Piece.ofText outside line ((u ++ w) ++ (v ++ rest)) ≠ .ok (.prose (u ++ w).length) := by
  intro hpiece
  obtain ⟨front, rfl⟩ := List.getLast?_eq_some_iff.mp hu
  obtain ⟨body, d, rfl⟩ := (List.eq_nil_or_concat w).resolve_left hw
  have hd : isIndent d = true := List.all_eq_true.mp hindent d (by simp)
  have hplain : d ≠ '\x60' ∧ d ≠ '>' := by
    constructor
    · rintro rfl
      cases hd
    · rintro rfl
      cases hd
  have hnext : (v ++ rest).head? ≠ some '\n' := by
    cases v with
    | nil => simp [hrest]
    | cons e v =>
        intro hfeed
        have he := List.all_eq_true.mp hindent e (by simp)
        rw [Option.some.inj hfeed] at he
        cases he
  have hne : v ++ rest ≠ [] := by
    intro hnil
    simp [(List.append_eq_nil_iff.mp hnil).2] at hrest
  have hlast : (front ++ ['\n'] ++ body.concat d).getLast? = some d := by
    rw [List.concat_eq_append, ← List.append_assoc, List.getLast?_concat]
  have hlength : (front ++ ['\n'] ++ body.concat d).length = front.length + body.length + 2 := by
    simp
    omega
  -- A piece that ends inside an indent is one character, or a backslash and one; this one has a line feed and at least
  -- one character behind it.
  have hends := Piece.ofText_ends hpiece (by simp)
  rcases hends.last hne hlast hplain (.inl hnext) with hone | hescaped
  · rw [hone, List.length_singleton] at hlength
    omega
  · rw [hescaped, List.length_cons, List.length_singleton] at hlength
    have hfront : front = [] := List.length_eq_zero_iff.mp (by omega)
    rw [hfront] at hescaped
    simp at hescaped

/-- An indent at the end of prose can be left to what comes behind, if a bracket comes there. -/
theorem before_indent {u w : List Char} (h : Prose outside line (u ++ w) rest)
    (hu : u = [] ∨ u.getLast? = some '\n') (hw : w.all isIndent = true)
    (hrest : rest.head? = some '<') : Prose outside line u (w ++ rest) := by
  generalize hvalue : u ++ w = value at h
  induction h generalizing u with
  | nil line rest =>
      rw [(List.append_eq_nil_iff.mp hvalue).1]
      exact .nil _ _
  | @cons line v value whole rest hv hpiece _ hwhole ih =>
      subst hwhole
      rcases List.append_eq_append_iff.mp hvalue with ⟨w₁, rfl, rfl⟩ | ⟨u₁, rfl, rfl⟩
      · -- The piece starts in `u` and would go on into the indent.
        rcases hu with rfl | hu
        · exact .nil _ _
        cases w₁ with
        | nil =>
            rw [List.append_nil] at hpiece hv
            exact .cons hv hpiece (.nil _ _) (List.append_nil u).symm
        | cons c w₁ => exact absurd hpiece (ofText_ne_into_indent hu (by simp) hw hrest)
      · rw [List.append_assoc] at hpiece
        refine .cons hv hpiece (ih ?_ hrest rfl) rfl
        rcases hu with hnil | hu
        · exact .inl (List.append_eq_nil_iff.mp hnil).2
        · by_cases hu₁ : u₁ = []
          · exact .inl hu₁
          · rw [List.getLast?_append, Option.or_of_isSome (by simp [hu₁])] at hu
            exact .inr hu

/-- A character that is prose by itself is the first piece. -/
theorem tail {c : Char} (h : Prose outside line (c :: value) rest)
    (hpiece : Piece.ofText outside line (c :: (value ++ rest)) = .ok (.prose 1)) :
    Prose outside (c == '\n') value rest := by
  generalize hwhole : c :: value = whole at h
  cases h with
  | nil => cases hwhole
  | cons hu hpiece' hrest hsplit =>
      rename_i u v
      rw [← hwhole] at hsplit
      have hsame : u ++ (v ++ rest) = c :: (value ++ rest) := by
        rw [← List.append_assoc, ← hsplit, List.cons_append]
      rw [hsame, hpiece] at hpiece'
      have hlength : u.length = 1 := (Piece.prose.inj (Except.ok.inj hpiece')).symm
      obtain ⟨d, rfl⟩ := List.length_eq_one_iff.mp hlength
      obtain ⟨rfl, rfl⟩ := List.cons.inj hsplit
      exact hrest

/-- Whether a line starts before a line feed does not matter. -/
theorem of_feed_head (h : Prose outside line ('\n' :: value) rest) (line' : Bool) :
    Prose outside line' ('\n' :: value) rest :=
  .cons (List.cons_ne_nil '\n' []) (Piece.ofText_feed _) (h.tail (Piece.ofText_feed _)) rfl

/-- Prose behind blank lines. -/
theorem behind_blank {u : List Char} (h : Prose outside line (u ++ value) rest)
    (hblank : allBlank u = true) (hfeed : u.getLast? = some '\n') : Prose outside true value rest := by
  induction u generalizing line with
  | nil => simp at hfeed
  | cons c u ih =>
      obtain ⟨body, hbody⟩ := List.getLast?_eq_some_iff.mp hfeed
      have hc : ∀ d, isBlank d = false → c ≠ d := by
        rintro d hd rfl
        have hblank' := List.all_eq_true.mp hblank c (by simp)
        rw [hd] at hblank'
        cases hblank'
      have hscript : startsScript (c :: (u ++ value ++ rest)) = false := by
        simp [startsScript, dropLead?, Ne.symm (hc 'i' (by decide)), Ne.symm (hc 'e' (by decide))]
      -- The line is blank up to its line feed, which is in `u`.
      have hfence : fence? (restOfLine (c :: (u ++ value ++ rest))) = none := by
        have hwhole : c :: (u ++ value ++ rest) = body ++ '\n' :: (value ++ rest) := by
          rw [List.append_assoc, ← List.cons_append, hbody, List.append_assoc]
          rfl
        rw [hwhole, restOfLine_append_feed]
        refine fence?_eq_none_of_blank ?_
        rw [hbody] at hblank
        rw [allBlank, List.all_append, Bool.and_eq_true] at hblank
        exact List.all_eq_true.mpr fun d hd =>
          List.all_eq_true.mp hblank.1 d ((List.takeWhile_prefix _).subset hd)
      have htail := h.tail (Piece.ofText_char (fun _ _ => hscript) (fun _ => hfence)
        ⟨hc _ (by decide), hc _ (by decide), hc _ (by decide), hc _ (by decide)⟩)
      by_cases hu : u = []
      · subst hu
        have hsame : c = '\n' := by simpa using hfeed
        rw [hsame] at htail
        exact htail
      · refine ih htail ?_ ?_
        · rw [allBlank, List.all_cons, Bool.and_eq_true] at hblank
          exact hblank.2
        · rwa [← List.singleton_append, List.getLast?_append, Option.or_of_isSome (by simp [hu])]
            at hfeed

end Prose

end Markup
end StoryDocs
