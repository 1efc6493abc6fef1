import StoryDocs.Proofs.Markup.Extent
import StoryDocs.Proofs.Text.Trimming

/-!
# How far prose looks ahead

Whether a piece of prose ends where it does can depend on the text behind it: a word of the script language
or a link reads on for a few characters, and a run of backticks looks for its match up to the end of the
text.  `Alike s t` says that `s` and `t` show the same to what stands before them, and prose before one of
them reads the same before the other.
-/

namespace StoryDocs
namespace Markup

open Text

/-! ## Runs of backticks -/

section Runs

variable {run seen : Nat} {c : Char} {s t u : List Char}

theorem closingRun?_tick (run seen : Nat) (s : List Char) :
    closingRun? run seen ('\x60' :: s) = (closingRun? run (seen + 1) s).map (· + 1) := by
  simp [closingRun?]

theorem closingRun?_of_ne (hc : c ≠ '\x60') (run seen : Nat) (s : List Char) :
    closingRun? run seen (c :: s) =
      if seen = run then some 0 else (closingRun? run 0 s).map (· + 1) := by
  simp [closingRun?, hc]

/-- Behind a character that is no backtick all runs are whole. -/
theorem closingRun?_eq_none_of_ne (hc : c ≠ '\x60') :
    closingRun? run seen (c :: s) = none ↔ seen ≠ run ∧ closingRun? run 0 s = none := by
  rw [closingRun?_of_ne hc]
  by_cases hseen : seen = run
  · simp [hseen]
  · simp [hseen]

/-- A run without a match has none further on. -/
theorem closingRun?_behind (hc : c ≠ '\x60') (h : closingRun? run seen (u ++ c :: s) = none) :
    closingRun? run 0 s = none := by
  induction u generalizing seen with
  | nil => exact ((closingRun?_eq_none_of_ne hc).mp h).2
  | cons d u ih =>
      by_cases hd : d = '\x60'
      · subst hd
        rw [List.cons_append, closingRun?_tick, Option.map_eq_none_iff] at h
        exact ih h
      · exact ih ((closingRun?_eq_none_of_ne hd).mp h).2

/-- A character that is no backtick parts the runs before it from those behind it. -/
theorem closingRun?_append (hc : c ≠ '\x60') :
    closingRun? run seen (u ++ c :: s) = none ↔
      closingRun? run seen u = none ∧ closingRun? run 0 s = none := by
  induction u generalizing seen with
  | nil =>
      rw [List.nil_append, closingRun?_eq_none_of_ne hc]
      simp [closingRun?]
  | cons d u ih =>
      by_cases hd : d = '\x60'
      · subst hd
        rw [List.cons_append, closingRun?_tick, closingRun?_tick, Option.map_eq_none_iff,
          Option.map_eq_none_iff, ih]
      · rw [List.cons_append, closingRun?_eq_none_of_ne hd, closingRun?_eq_none_of_ne hd, ih, and_assoc]

/-- What runs of backticks find no match in `s` find none in `t`. -/
def RunsKept (s t : List Char) : Prop :=
  ∀ run, 0 < run → closingRun? run 0 s = none → closingRun? run 0 t = none

namespace RunsKept

theorem refl (s : List Char) : RunsKept s s :=
  fun _ _ h => h

theorem trans (h : RunsKept s t) (hnext : RunsKept t u) : RunsKept s u :=
  fun run hrun hs => hnext run hrun (h run hrun hs)

/-- Nothing holds a run. -/
theorem nil (s : List Char) : RunsKept s [] := by
  intro run hrun _
  have hne : 0 ≠ run := by omega
  simp [closingRun?, hne]

/-- A text can have more in front, up to a character that is no backtick. -/
theorem of_behind (hc : c ≠ '\x60') (h : RunsKept s t) : RunsKept (u ++ c :: s) t :=
  fun run hrun hs => h run hrun (closingRun?_behind hc hs)

/-- Characters that are no backticks can be put in front. -/
theorem put (h : RunsKept s t) (hu : '\x60' ∉ u) : RunsKept s (u ++ t) := by
  intro run hrun hs
  have ht := h run hrun hs
  induction u with
  | nil => exact ht
  | cons c u ih =>
      rw [List.mem_cons, not_or] at hu
      have hne : 0 ≠ run := by omega
      exact (closingRun?_eq_none_of_ne (Ne.symm hu.1)).mpr ⟨hne, ih hu.2⟩

/-- Characters that are no backticks can be taken off. -/
theorem drop (hu : '\x60' ∉ u) (h : RunsKept s t) : RunsKept (u ++ s) t := by
  intro run hrun hs
  refine h run hrun ?_
  induction u with
  | nil => exact hs
  | cons c u ih =>
      rw [List.mem_cons, not_or] at hu
      exact ih hu.2 ((closingRun?_eq_none_of_ne (Ne.symm hu.1)).mp hs).2

/-- Texts can be joined at a character that is no backtick. -/
theorem join {v : List Char} (hc : c ≠ '\x60') (hfront : RunsKept u v) (h : RunsKept s t) :
    RunsKept (u ++ c :: s) (v ++ c :: t) := by
  intro run hrun hs
  rw [closingRun?_append hc] at hs ⊢
  exact ⟨hfront run hrun hs.1, h run hrun hs.2⟩

/-- The same text can stand in front of both, if it does not end with a backtick. -/
theorem append (hc : c ≠ '\x60') (h : RunsKept s t) : RunsKept (u ++ c :: s) (u ++ c :: t) :=
  join hc (refl u) h

/-- The same text can stand in front of both, if it ends with a bracket. -/
theorem behind_bracket (hlast : u.getLast? = some '>') (h : RunsKept s t) : RunsKept (u ++ s) (u ++ t) := by
  obtain ⟨body, rfl⟩ := List.getLast?_eq_some_iff.mp hlast
  rw [List.append_assoc, List.append_assoc]
  exact append (by decide) h

/-- Texts can be joined where lines end. -/
theorem join_lines {v : List Char} (hs : s = [] ∨ s.head? = some '\n') (ht : t = [] ∨ t.head? = some '\n')
    (hfront : RunsKept u v) (h : RunsKept s t) : RunsKept (u ++ s) (v ++ t) := by
  have hsplit : ∀ {run : Nat} {x y : List Char}, 0 < run → (y = [] ∨ y.head? = some '\n') →
      (closingRun? run 0 (x ++ y) = none ↔ closingRun? run 0 x = none ∧ closingRun? run 0 y = none) := by
    rintro run x y hrun (rfl | hy)
    · rw [List.append_nil]
      exact ⟨fun hx => ⟨hx, nil x run hrun hx⟩, And.left⟩
    · obtain ⟨y, rfl⟩ := List.head?_eq_some_iff.mp hy
      rw [closingRun?_append (by decide), closingRun?_eq_none_of_ne (by decide)]
      simp [Nat.ne_of_lt hrun]
  intro run hrun hnone
  rw [hsplit hrun hs] at hnone
  exact (hsplit hrun ht).mpr ⟨hfront run hrun hnone.1, h run hrun hnone.2⟩

/-- A text up to a bracket can be replaced by one without backticks. -/
theorem replace (hlast : u.getLast? = some '>') {v : List Char} (hv : '\x60' ∉ v) (h : RunsKept s t) :
    RunsKept (u ++ s) (v ++ t) := by
  obtain ⟨body, rfl⟩ := List.getLast?_eq_some_iff.mp hlast
  rw [List.append_assoc]
  exact of_behind (by decide) (h.put hv)

end RunsKept

end Runs

/-! ## The next characters -/

/-- Two texts are the same up to an angle bracket, a line feed or their end. -/
inductive Ahead : List Char → List Char → Prop
  | nil : Ahead [] []
  | cons (c : Char) {s t : List Char} (h : Ahead s t) : Ahead (c :: s) (c :: t)
  | stop {c : Char} (hc : c = '<' ∨ c = '>' ∨ c = '\n') (s t : List Char) : Ahead (c :: s) (c :: t)

namespace Ahead

variable {s t : List Char}

theorem head? (h : Ahead s t) : s.head? = t.head? := by
  cases h with
  | nil => rfl
  | cons c _ => rfl
  | stop _ _ _ => rfl

theorem cases_head (h : Ahead s t) : (s = [] ∧ t = []) ∨ ∃ c u v, s = c :: u ∧ t = c :: v := by
  cases h with
  | nil => exact .inl ⟨rfl, rfl⟩
  | cons c _ => exact .inr ⟨c, _, _, rfl, rfl⟩
  | stop _ s t => exact .inr ⟨_, s, t, rfl, rfl⟩

theorem tail {c : Char} (hc : ¬ (c = '<' ∨ c = '>' ∨ c = '\n')) (h : Ahead (c :: s) (c :: t)) :
    Ahead s t := by
  cases h with
  | cons _ h => exact h
  | stop hstop _ _ => exact absurd hstop hc

theorem append (u : List Char) (h : Ahead s t) : Ahead (u ++ s) (u ++ t) := by
  induction u with
  | nil => exact h
  | cons c u ih => exact .cons c ih

/-- A text that ends with a bracket or a line feed hides what is behind it. -/
theorem of_last {c : Char} (hc : c = '<' ∨ c = '>' ∨ c = '\n') (u s t : List Char) :
    Ahead (u ++ c :: s) (u ++ c :: t) :=
  (Ahead.stop hc s t).append u

/-- Characters of a class without brackets and line feeds are the same ahead. -/
theorem takeWhile {p : Char → Bool} (hp : p '<' = false ∧ p '>' = false ∧ p '\n' = false)
    (h : Ahead s t) :
    s.takeWhile p = t.takeWhile p ∧
      Ahead (s.drop (s.takeWhile p).length) (t.drop (s.takeWhile p).length) := by
  induction h with
  | nil => exact ⟨rfl, .nil⟩
  | @cons c s t h ih =>
      by_cases hc : p c = true
      · simpa [List.takeWhile_cons, hc] using ih
      · simpa [List.takeWhile_cons, hc] using Ahead.cons c h
  | @stop c hc s t =>
      have hpc : p c = false := by
        rcases hc with rfl | rfl | rfl
        · exact hp.1
        · exact hp.2.1
        · exact hp.2.2
      simpa [List.takeWhile_cons, hpc] using Ahead.stop hc s t

/-- A word without brackets and line feeds stands ahead in both texts or in none. -/
theorem dropLead? (lead : List Char) (hlead : '<' ∉ lead ∧ '>' ∉ lead ∧ '\n' ∉ lead)
    (h : Ahead s t) :
    (Text.dropLead? lead s = none ∧ Text.dropLead? lead t = none) ∨
      ∃ s' t', Text.dropLead? lead s = some s' ∧ Text.dropLead? lead t = some t' ∧ Ahead s' t' := by
  induction lead generalizing s t with
  | nil => exact .inr ⟨s, t, rfl, rfl, h⟩
  | cons a lead ih =>
      have htail : '<' ∉ lead ∧ '>' ∉ lead ∧ '\n' ∉ lead :=
        ⟨fun hm => hlead.1 (by simp [hm]), fun hm => hlead.2.1 (by simp [hm]),
          fun hm => hlead.2.2 (by simp [hm])⟩
      cases h with
      | nil => exact .inl ⟨rfl, rfl⟩
      | @cons c s t h =>
          by_cases hac : a = c
          · simpa [Text.dropLead?, hac] using ih htail h
          · exact .inl (by simp [Text.dropLead?, hac])
      | @stop c hc s t =>
          have hac : a ≠ c := by
            rintro rfl
            rcases hc with rfl | rfl | rfl
            · exact hlead.1 (by simp)
            · exact hlead.2.1 (by simp)
            · exact hlead.2.2 (by simp)
          exact .inl (by simp [Text.dropLead?, hac])

theorem startsWith (lead : List Char) (hlead : '<' ∉ lead ∧ '>' ∉ lead ∧ '\n' ∉ lead)
    (h : Ahead s t) : Text.startsWith lead s = Text.startsWith lead t := by
  rcases h.dropLead? lead hlead with ⟨hs, ht⟩ | ⟨s', t', hs, ht, _⟩
  · simp [Text.startsWith, hs, ht]
  · simp [Text.startsWith, hs, ht]

theorem startsScript (h : Ahead s t) : Markup.startsScript s = Markup.startsScript t := by
  unfold Markup.startsScript
  rcases h.dropLead? "import".toList (by decide) with ⟨hs, ht⟩ | ⟨s', t', hs, ht, hahead⟩
  · rcases h.dropLead? "export".toList (by decide) with ⟨hs', ht'⟩ | ⟨s', t', hs', ht', hahead⟩
    · rw [hs, ht, hs', ht']
    · rw [hs, ht, hs', ht']
      rcases hahead.cases_head with ⟨rfl, rfl⟩ | ⟨c, u, v, rfl, rfl⟩
      · rfl
      · rfl
  · rw [hs, ht]
    rcases hahead.cases_head with ⟨rfl, rfl⟩ | ⟨c, u, v, rfl, rfl⟩
    · rfl
    · rfl

/-! ### Links -/

theorem schemeLinkLength? (h : Ahead s t) :
    Markup.schemeLinkLength? s = Markup.schemeLinkLength? t := by
  cases h with
  | nil => rfl
  | @stop c hc s t =>
      have halpha : c.isAlpha = false := by
        rcases hc with rfl | rfl | rfl
        · decide
        · decide
        · decide
      simp [Markup.schemeLinkLength?, halpha]
  | @cons c s t h =>
      obtain ⟨hscheme, hbehind⟩ := h.takeWhile (p := isSchemeChar) (by decide)
      unfold Markup.schemeLinkLength?
      dsimp only
      rw [← hscheme]
      split
      · rfl
      · rcases hbehind.cases_head with ⟨hs, ht⟩ | ⟨d, u, v, hs, ht⟩
        · rw [hs, ht]
        · rw [hs, ht] at hbehind ⊢
          by_cases hd : d = ':'
          · subst hd
            obtain ⟨htarget, hend⟩ := (hbehind.tail (by decide)).takeWhile
              (p := fun d => !isBlank d && d != '<' && d != '>') (by decide)
            rw [htarget] at hend
            simp only [htarget, hend.head?]
          · split
            · rename_i heq
              exact absurd (List.cons.inj heq).1 hd
            · split
              · rename_i heq
                exact absurd (List.cons.inj heq).1 hd
              · rfl

theorem mailLinkLength? (h : Ahead s t) : Markup.mailLinkLength? s = Markup.mailLinkLength? t := by
  obtain ⟨hmailbox, hbehind⟩ := h.takeWhile (p := isMailboxChar) (by decide)
  unfold Markup.mailLinkLength?
  dsimp only
  rw [← hmailbox]
  split
  · rfl
  · rcases hbehind.cases_head with ⟨hs, ht⟩ | ⟨d, u, v, hs, ht⟩
    · rw [hs, ht]
    · rw [hs, ht] at hbehind ⊢
      by_cases hd : d = '@'
      · subst hd
        obtain ⟨hhost, hend⟩ := (hbehind.tail (by decide)).takeWhile
          (p := fun c => isAsciiAlphanumeric c || c == '-' || c == '.') (by decide)
        rw [hhost] at hend
        simp only [hhost, hend.head?]
      · split
        · rename_i heq
          exact absurd (List.cons.inj heq).1 hd
        · split
          · rename_i heq
            exact absurd (List.cons.inj heq).1 hd
          · rfl

theorem autolinkLength? (h : Ahead s t) :
    Markup.autolinkLength? ('<' :: s) = Markup.autolinkLength? ('<' :: t) := by
  rw [Markup.autolinkLength?, Markup.autolinkLength?, h.schemeLinkLength?, h.mailLinkLength?]

end Ahead

/-! ## Texts that show the same -/

/-- What stands before `s` sees the same if it stands before `t`: the next characters, and no match for a
run of backticks that has none in `s`. -/
structure Alike (s t : List Char) : Prop where
  ahead : Ahead s t
  /-- Some backticks of a run can stand just before. -/
  runs : ∀ run seen, 0 < run → closingRun? run seen s = none → closingRun? run seen t = none

namespace Alike

variable {c : Char} {s t : List Char}

theorem refl (s : List Char) : Alike s s where
  ahead := by
    induction s with
    | nil => exact .nil
    | cons c s ih => exact .cons c ih
  runs := fun _ _ _ h => h

theorem runsKept (h : Alike s t) : RunsKept s t :=
  fun run hrun hs => h.runs run 0 hrun hs

/-- Behind a bracket or a line feed only runs of backticks show. -/
theorem of_stop (hc : c = '<' ∨ c = '>' ∨ c = '\n') (h : RunsKept s t) : Alike (c :: s) (c :: t) where
  ahead := .stop hc s t
  runs := by
    intro run seen hrun hs
    have htick : c ≠ '\x60' := by
      rcases hc with rfl | rfl | rfl
      · decide
      · decide
      · decide
    rw [closingRun?_eq_none_of_ne htick] at hs ⊢
    exact ⟨hs.1, h run hrun hs.2⟩

/-- Texts that start with a bracket show it and runs of backticks. -/
theorem of_heads (hs : s.head? = some '<') (ht : t.head? = some '<') (h : RunsKept s t) : Alike s t := by
  obtain ⟨s, rfl⟩ := List.head?_eq_some_iff.mp hs
  obtain ⟨t, rfl⟩ := List.head?_eq_some_iff.mp ht
  refine of_stop (.inl rfl) fun run hrun hnone => ?_
  have hkept := h run hrun ((closingRun?_eq_none_of_ne (by decide)).mpr ⟨Nat.ne_of_lt hrun, hnone⟩)
  exact ((closingRun?_eq_none_of_ne (by decide)).mp hkept).2

theorem append (u : List Char) (h : Alike s t) : Alike (u ++ s) (u ++ t) where
  ahead := h.ahead.append u
  runs := by
    intro run seen hrun
    induction u generalizing seen with
    | nil => exact h.runs run seen hrun
    | cons d u ih =>
        intro hs
        by_cases hd : d = '\x60'
        · subst hd
          rw [List.cons_append, closingRun?_tick, Option.map_eq_none_iff] at hs ⊢
          exact ih _ hs
        · rw [List.cons_append, closingRun?_eq_none_of_ne hd] at hs ⊢
          exact ⟨hs.1, ih _ hs.2⟩

/-- A text that ends with a line feed hides all behind it but runs of backticks. -/
theorem of_feed {u : List Char} (hu : u.getLast? = some '\n') (h : RunsKept s t) :
    Alike (u ++ s) (u ++ t) := by
  obtain ⟨body, rfl⟩ := List.getLast?_eq_some_iff.mp hu
  rw [List.append_assoc, List.append_assoc]
  exact (of_stop (.inr (.inr rfl)) h).append body

theorem eq_nil_iff (h : Alike s t) : s = [] ↔ t = [] := by
  rcases h.ahead.cases_head with ⟨rfl, rfl⟩ | ⟨c, u, v, rfl, rfl⟩
  · rfl
  · simp

end Alike

end Markup
end StoryDocs
