import StoryDocs.Proofs.Markup.Positions
import StoryDocs.Proofs.Outcome
import StoryDocs.Proofs.Text.Slice

/-!
# Where errors are reported

A fault says how many characters lie before it.  They are characters of the text that was looked at, and an unexpected
character is the one behind them.  So an error is reported at a place of the source, and the place is counted as those of
elements are.
-/

namespace StoryDocs
namespace Markup

open Text

/-! ## Faults of tags and pieces -/

/-- A fault lies in a text: the characters before it are there, and an unexpected one comes next. -/
structure Fault.LiesIn (f : Fault) (s : List Char) : Prop where
  after_le : f.after ≤ s.length
  found : ∀ c expected, f.cause = .unexpected c expected → (s.drop f.after).head? = some c

namespace Fault.LiesIn

variable {f : Fault} {s : List Char} {n : Nat}

/-- A fault of the text as a whole. -/
theorem of_start {cause : Cause} (s : List Char) (h : ∀ c expected, cause ≠ .unexpected c expected) :
    LiesIn ⟨0, cause⟩ s :=
  ⟨Nat.zero_le _, fun c expected hcause => absurd hcause (h c expected)⟩

/-- The next character is the one that is not expected, unless the text ends. -/
theorem of_unexpected (hn : n ≤ s.length) (expected : String) : LiesIn (.unexpected n (s.drop n) expected) s := by
  unfold Fault.unexpected
  split
  · rename_i c rest hrest
    refine ⟨hn, ?_⟩
    rintro _ _ ⟨⟩
    rw [hrest]
    rfl
  · exact ⟨hn, fun _ _ hcause => Cause.noConfusion hcause⟩

/-- A fault further behind. -/
theorem shift (h : f.LiesIn (s.drop n)) (hn : n ≤ s.length) : (f.shift n).LiesIn s := by
  obtain ⟨hle, hfound⟩ := h
  rw [List.length_drop] at hle
  refine ⟨?_, ?_⟩
  · show n + f.after ≤ s.length
    omega
  · intro c expected hcause
    have hnext := hfound c expected hcause
    rwa [List.drop_drop] at hnext

end Fault.LiesIn

section Readers

variable {s name : List Char} {f : Fault}

theorem blankLength_le (s : List Char) : blankLength s ≤ s.length :=
  (List.takeWhile_prefix isAsciiBlank).length_le

theorem readGroup_fault (h : readGroup s = .error f) : f.LiesIn s := by
  unfold readGroup at h
  split at h
  · cases h
  · cases h
    exact .of_start s fun _ _ => Cause.noConfusion

theorem readGroup_size_le {g : Read (List Char)} (h : readGroup s = .ok g) : g.size ≤ s.length := by
  unfold readGroup at h
  split at h
  · rename_i n hgroup
    cases h
    obtain ⟨body, rest, rfl, rfl⟩ := groupLength?_closes hgroup
    simp
  · cases h

theorem readSpread_fault (h : readSpread s = .error f) : f.LiesIn s := by
  unfold readSpread at h
  split at h
  · rename_i g hgroup
    cases h
    exact readGroup_fault hgroup
  · split at h
    · cases h
    · cases h
      exact .of_start s fun _ _ => Cause.noConfusion

theorem readSpread_size_le {a : Read Attribute} (h : readSpread s = .ok a) : a.size ≤ s.length := by
  unfold readSpread at h
  split at h
  · cases h
  · rename_i g hgroup
    split at h
    · cases h
      exact readGroup_size_le hgroup
    · cases h

/-- A fault of a value is reported from the start of the name on. -/
theorem readValue_fault {n : Nat} (hn : n ≤ s.length) (h : readValue name n (s.drop n) = .error f) : f.LiesIn s := by
  have hunexpected := fun expected => Fault.LiesIn.of_unexpected hn expected
  generalize hrest : s.drop n = rest at h hunexpected
  cases rest with
  | nil =>
      cases h
      exact hunexpected _
  | cons c t =>
      simp only [readValue] at h
      split at h
      · split at h
        · cases h
        · cases h
          exact .of_start s fun _ _ => Cause.noConfusion
      · split at h
        · split at h
          · cases h
          · rename_i g hgroup
            cases h
            rw [← hrest] at hgroup
            exact (readGroup_fault hgroup).shift hn
        · cases h
          exact hunexpected _

theorem readValue_size_le {n : Nat} {v : Read AttributeValue} (h : readValue name n s = .ok v) :
    v.size ≤ s.length := by
  cases s with
  | nil => cases h
  | cons c t =>
      simp only [readValue] at h
      split at h
      · split at h
        · cases h
          simp only [List.length_cons]
          omega
        · cases h
      · split at h
        · split at h
          · rename_i g hgroup
            cases h
            exact readGroup_size_le hgroup
          · cases h
        · cases h

/-- Behind a name with an equals sign comes its value. -/
theorem exists_value {t : List Char} {gap : Nat} (h : (s.drop (s.takeWhile isNameChar).length).drop gap = '=' :: t) :
    s.drop ((s.takeWhile isNameChar).length + gap + 1 + blankLength t) = t.drop (blankLength t) ∧
      (s.takeWhile isNameChar).length + gap + 1 + blankLength t ≤ s.length := by
  have hlength := congrArg List.length h
  simp only [List.length_drop, List.length_cons] at hlength
  have hblank := blankLength_le t
  refine ⟨?_, by omega⟩
  rw [List.drop_drop] at h
  rw [Nat.add_assoc _ 1, ← List.drop_drop, h, Nat.add_comm 1, List.drop_succ_cons]

theorem readProperty_fault (h : readProperty s = .error f) : f.LiesIn s := by
  simp only [readProperty] at h
  split at h
  · rename_i t hrest
    obtain ⟨hdrop, hle⟩ := exists_value hrest
    split at h
    · cases h
    · rename_i g hvalue
      cases h
      rw [← hdrop] at hvalue
      exact readValue_fault hle hvalue
  · cases h

theorem readProperty_size_le {a : Read Attribute} (h : readProperty s = .ok a) : a.size ≤ s.length := by
  simp only [readProperty] at h
  split at h
  · rename_i t hrest
    obtain ⟨hdrop, hle⟩ := exists_value hrest
    split at h
    · rename_i v hvalue
      cases h
      rw [← hdrop] at hvalue
      have hsize := readValue_size_le hvalue
      rw [List.length_drop] at hsize
      dsimp only
      omega
    · cases h
  · cases h
    have hname := (List.takeWhile_prefix (l := s) isNameChar).length_le
    have hblank := blankLength_le (s.drop (s.takeWhile isNameChar).length)
    rw [List.length_drop] at hblank
    dsimp only
    omega

/-- The attributes of a tag report their own faults, each from behind the ones before it. -/
theorem readAttributes_fault {bound : Nat} (h : readAttributes bound s = .error f) : f.LiesIn s := by
  induction bound generalizing s f with
  | zero =>
      cases h
      exact .of_unexpected (n := 0) (Nat.zero_le _) _
  | succ bound ih =>
      have hgap := blankLength_le s
      -- What is read behind an attribute fails further behind.
      have hnext : ∀ {a : Read Attribute} {g : Fault}, a.size ≤ (s.drop (blankLength s)).length →
          readAttributes bound ((s.drop (blankLength s)).drop a.size) = .error g →
            (g.shift (blankLength s + a.size)).LiesIn s := by
        intro a g hsize hrest
        rw [List.length_drop] at hsize
        rw [List.drop_drop] at hrest
        exact (ih hrest).shift (by omega)
      simp only [readAttributes] at h
      split at h
      · cases h
      · cases h
      · split at h
        · split at h
          · rename_i hspread
            cases h
            exact (readSpread_fault hspread).shift hgap
          · rename_i hspread
            split at h
            · rename_i hrest
              cases h
              exact hnext (readSpread_size_le hspread) hrest
            · cases h
        · split at h
          · split at h
            · rename_i hproperty
              cases h
              exact (readProperty_fault hproperty).shift hgap
            · rename_i hproperty
              split at h
              · rename_i hrest
                cases h
                exact hnext (readProperty_size_le hproperty) hrest
              · cases h
          · cases h
            exact .of_unexpected hgap _
      · cases h
        exact .of_unexpected hgap _

theorem readOpeningTag_fault (hne : s ≠ []) (h : readOpeningTag s = .error f) : f.LiesIn s := by
  obtain ⟨c, t, rfl⟩ := List.exists_cons_of_ne_nil hne
  simp only [readOpeningTag] at h
  split at h
  · rename_i g hattributes
    cases h
    refine (readAttributes_fault hattributes).shift ?_
    have hname := (List.takeWhile_prefix (l := t) isNameChar).length_le
    simpa using hname
  · cases h

theorem readClosingTag_fault (hle : 2 ≤ s.length) (h : readClosingTag s = .error f) : f.LiesIn s := by
  have hgap := blankLength_le (s.drop 2)
  have hname := (List.takeWhile_prefix (l := s.drop (blankLength (s.drop 2) + 2)) isNameChar).length_le
  have htail := blankLength_le ((s.drop (blankLength (s.drop 2) + 2)).drop
    ((s.drop (blankLength (s.drop 2) + 2)).takeWhile isNameChar).length)
  simp only [List.length_drop] at hgap hname htail
  simp only [readClosingTag] at h
  split at h
  · cases h
  · cases h
    simp only [List.drop_drop] at htail ⊢
    exact .of_unexpected (by omega) _

end Readers

namespace Piece

variable {s : List Char} {f : Fault} {outside line : Bool}

theorem ofBracket_fault (hne : s ≠ []) (h : ofBracket s = .error f) : f.LiesIn s := by
  unfold ofBracket at h
  split at h
  · cases h
  split at h
  · rename_i hclosing
    exact readClosingTag_fault (startsWith_iff.mp hclosing).length_le (map_eq_error_iff.mp h)
  cases hautolink : autolinkLength? s with
  | some n =>
      rw [hautolink] at h
      cases h
  | none =>
      rw [hautolink] at h
      dsimp only at h
      split at h
      · split at h
        · exact readOpeningTag_fault hne (map_eq_error_iff.mp h)
        · cases h
      · cases h

/-- What goes wrong at a place of a text goes wrong in the text. -/
theorem ofText_fault (h : ofText outside line s = .error f) : f.LiesIn s := by
  unfold ofText at h
  split at h
  · cases h
  split at h
  · cases h
  cases s with
  | nil => cases h
  | cons c t =>
      simp only [ofInline] at h
      split at h
      · cases h
      split at h
      · cases h
      split at h
      · exact ofBracket_fault (List.cons_ne_nil c t) h
      split at h
      · split at h
        · cases h
        · cases h
          exact .of_start _ fun _ _ => Cause.noConfusion
      · cases h

end Piece

/-! ## Errors -/

/-- An error stands in a source: it is reported behind the part before it, and an unexpected character comes next. -/
def Error.StandsIn (e : Error) (source : List Char) : Prop :=
  ∃ before behind, source = before ++ behind ∧ e.position = Position.start.after before ∧
    ∀ c expected, e.cause = .unexpected c expected → behind.head? = some c

namespace State

variable {s t : State} {e : Error} {source : List Char}

/-- What holds at the start and is kept by every move holds of the state in which a document fails. -/
theorem run_failure (Inv : State → Prop) (hmove : ∀ {s t : State}, s.rest ≠ [] → Move s t → Inv s → Inv t)
    {bound : Nat} (hbound : s.rest.length ≤ bound) (hinv : Inv s) (h : run bound s = .error e) :
    ∃ last : State, Inv last ∧ (last.step = .error e ∨ last.finish = .error e) := by
  induction bound generalizing s with
  | zero => exact ⟨s, hinv, .inr h⟩
  | succ bound ih =>
      by_cases hrest : s.rest = []
      · rw [run_of_nil _ hrest] at h
        exact ⟨s, hinv, .inr h⟩
      · rw [run_succ bound hrest] at h
        cases hstep : s.step with
        | error e' =>
            rw [hstep] at h
            cases h
            exact ⟨s, hinv, .inl hstep⟩
        | ok t =>
            rw [hstep] at h
            have hm := step_move hrest hstep
            have hlt := hm.length_lt hrest
            exact ih (by omega) (hmove hrest hm hinv) h

/-- An error at the place that the reader has come to. -/
theorem standsIn_of_here (hs : s.Standing) (hsource : s.written ++ s.rest = source) {cause : Cause}
    (hcause : ∀ c expected, cause ≠ .unexpected c expected) : Error.StandsIn ⟨cause, s.place.position⟩ source := by
  refine ⟨s.written, s.rest, hsource.symm, ?_, fun c expected h => absurd h (hcause c expected)⟩
  rw [hs.place]
  exact Place.position_after _ _

theorem step_error (hs : s.Standing) (hsource : s.written ++ s.rest = source) (h : s.step = .error e) :
    e.StandsIn source := by
  unfold step at h
  split at h
  · rename_i f hfault
    cases h
    obtain ⟨_, hfound⟩ := Piece.ofText_fault hfault
    refine ⟨s.written ++ s.rest.take f.after, s.rest.drop f.after, ?_, ?_, hfound⟩
    · rw [List.append_assoc, List.take_append_drop, hsource]
    · have hhere : s.place.position = Position.start.after s.written :=
        (congrArg Place.position hs.place).trans (Place.position_after .start _)
      rw [Position.after_append, ← hhere]
      rfl
  · cases h
  · cases h
  · cases h
  · cases h
  · unfold takeClosing at h
    split at h
    · cases h
      exact standsIn_of_here hs hsource fun _ _ => Cause.noConfusion
    · split at h
      · cases h
        exact standsIn_of_here hs hsource fun _ _ => Cause.noConfusion
      · cases h

/-- An element that is never closed is reported where it stands. -/
theorem finish_error (hs : s.Standing) (hsource : s.written ++ s.rest = source) (h : s.finish = .error e) :
    e.StandsIn source := by
  unfold finish at h
  split at h
  · cases h
  · rename_i f fs hframes
    cases h
    obtain ⟨_, hposition, _⟩ := hframes ▸ hs.frames
    refine ⟨outer fs ++ Node.printAll f.before.reverse, f.opening ++ (Node.printAll s.flushed.reverse ++ s.rest), ?_, ?_,
      fun _ _ hcause => Cause.noConfusion hcause⟩
    · rw [← hsource, written_eq, hframes, outer_cons]
      simp
    · rw [hposition]
      exact Place.position_after _ _

end State

/-- The error of a text that is no document stands in it. -/
theorem parse_error {source : List Char} {e : Error} (h : parse source = .error e) : e.StandsIn source := by
  obtain ⟨last, ⟨hstanding, hsource⟩, hfailed⟩ :=
    State.run_failure (fun s => s.Standing ∧ s.written ++ s.rest = source)
      (fun _ hmove hs => ⟨hmove.standing hs.1, hmove.written_append_rest.trans hs.2⟩) (Nat.le_refl _)
      ⟨.start source, by simp [State.written]⟩ h
  rcases hfailed with hstep | hfinish
  · exact State.step_error hstanding hsource hstep
  · exact State.finish_error hstanding hsource hfinish

end Markup
end StoryDocs
