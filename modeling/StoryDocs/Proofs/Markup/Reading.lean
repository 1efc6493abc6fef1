import StoryDocs.Proofs.Markup.Extent

/-!
# Moves of the reader

`State.Move s t` lists everything that one step of the reader can do.  A property of states that holds at
the start and is kept by every move holds when the text is used up, because every move takes at least
one character off it.
-/

namespace StoryDocs
namespace Markup
namespace State

open Text

/-- The element that an opening tag at this place starts. -/
def tagOf (s : State) (t : OpeningTag) : Tag :=
  { name := t.name, attributes := t.tagEnd.attributes, flow := s.place.indented,
    position := s.place.position }

/-- An open element with its closing tag. -/
def closed (f : Frame) (closing : List Char) (children : List Node) : Node :=
  .element { f.tag with source := some ⟨f.opening, some closing⟩ } children

/-- What one step of the reader does to the state. -/
inductive Move (s : State) : State → Prop
  /-- Take prose. -/
  | prose {n : Nat} (hpos : 0 < n) : Move s (s.takeProse n)
  /-- Take a script block, outside all elements and at the start of a line. -/
  | script (houtside : s.frames = []) (hline : s.place.startsLine = true)
      (hstart : startsScript s.rest = true) :
      Move s (s.takeNode (scriptLength s.rest) (.script (s.rest.take (scriptLength s.rest))))
  /-- Take an expression with its braces. -/
  | expression {value : List Char} {n : Nat}
      (htaken : s.rest.take n = '\x7b' :: value ++ ['\x7d']) (hcloses : Closes '\x7d' n s.rest) :
      Move s (s.takeNode n (.expression value s.place.indented))
  /-- Take an element that closes itself. -/
  | childless {t : OpeningTag} {n : Nat} (hbracket : s.rest.head? = some '<')
      (hread : readOpeningTag s.rest = .ok ⟨t, n⟩) (hself : t.tagEnd.selfClosing = true) :
      Move s (s.takeNode n
        (.element { s.tagOf t with source := some ⟨s.rest.take n, none⟩ } []))
  /-- Open an element. -/
  | opening {t : OpeningTag} {n : Nat} (hbracket : s.rest.head? = some '<')
      (hread : readOpeningTag s.rest = .ok ⟨t, n⟩) (hself : t.tagEnd.selfClosing = false) :
      Move s { s.skip n with
        frames := ⟨s.tagOf t, s.rest.take n, s.flushed⟩ :: s.frames
        nodes := []
        pending := [] }
  /-- Close the innermost open element. -/
  | closing {f : Frame} {fs : List Frame} {n : Nat} (hframes : s.frames = f :: fs)
      (hbracket : s.rest.head? = some '<') (hread : readClosingTag s.rest = .ok ⟨f.tag.name, n⟩) :
      Move s { s.skip n with
        frames := fs
        nodes := closed f (s.rest.take n) s.flushed.reverse :: f.before
        pending := [] }

variable {s t : State}

theorem takeOpening_move {tag : OpeningTag} {n : Nat} (hbracket : s.rest.head? = some '<')
    (hread : readOpeningTag s.rest = .ok ⟨tag, n⟩) : Move s (s.takeOpening n tag) := by
  unfold takeOpening
  dsimp only
  split
  · rename_i hself
    exact .childless hbracket hread hself
  · rename_i hself
    exact .opening hbracket hread (by simpa using hself)

theorem takeClosing_move {name : List Char} {n : Nat} (hbracket : s.rest.head? = some '<')
    (hread : readClosingTag s.rest = .ok ⟨name, n⟩) (h : s.takeClosing n name = .ok t) :
    Move s t := by
  unfold takeClosing at h
  split at h
  · cases h
  · rename_i f fs hframes
    split at h
    · cases h
    · rename_i hname
      have hsame : name = f.tag.name := by simpa using hname
      subst hsame
      cases h
      exact .closing hframes hbracket hread

/-- A step of the reader is one of the moves. -/
theorem step_move (hrest : s.rest ≠ []) (h : s.step = .ok t) : Move s t := by
  obtain ⟨c, rest, hcons⟩ := List.exists_cons_of_ne_nil hrest
  unfold step at h
  cases hpiece : Piece.ofText s.frames.isEmpty s.place.startsLine s.rest with
  | error f => simp [hpiece] at h
  | ok p =>
      have hstarts : Piece.Starts s.frames.isEmpty s.place.startsLine s.rest p := by
        rw [hcons] at hpiece ⊢
        exact Piece.ofText_starts hpiece
      rw [hpiece] at h
      -- The cases of `Piece.Starts` fix the first character of the text.
      generalize hs : s.rest = text at hstarts
      cases hstarts with
      | prose hpos =>
          cases h
          exact .prose hpos
      | script houtside hline hstart =>
          subst hs
          cases h
          exact .script (List.isEmpty_iff.mp houtside) hline hstart
      | expression hgroup =>
          rename_i inner n
          cases h
          have htaken := groupLength?_take hgroup
          have hcloses := groupLength?_closes hgroup
          rw [← hs] at htaken hcloses
          have hvalue : (s.rest.drop 1).take (n - 2) = inner.take (n - 2) := by rw [hs]; rfl
          rw [hvalue]
          exact .expression htaken hcloses
      | opening hread =>
          rw [← hs] at hread
          cases h
          exact takeOpening_move (by rw [hs]; rfl) hread
      | closing hread =>
          rw [← hs] at hread
          exact takeClosing_move (by rw [hs]; rfl) hread h

/-- Every move takes at least one character off the text. -/
theorem Move.length_lt (hmove : Move s t) (hrest : s.rest ≠ []) :
    t.rest.length < s.rest.length := by
  have hlength := List.length_pos_iff.mpr hrest
  have hdrop : ∀ {n : Nat}, 0 < n → (s.rest.drop n).length < s.rest.length := by
    intro n hn
    rw [List.length_drop]
    omega
  cases hmove with
  | prose hpos => exact hdrop hpos
  | script _ _ hstart => exact hdrop (scriptLength_pos hstart)
  | expression _ hcloses => exact hdrop hcloses.pos
  | childless _ hread _ => exact hdrop (readOpeningTag_closes hread).pos
  | opening _ hread _ => exact hdrop (readOpeningTag_closes hread).pos
  | closing _ _ hread => exact hdrop (readClosingTag_closes hread).pos

theorem run_of_nil (n : Nat) (hrest : s.rest = []) : run n s = s.finish := by
  cases n with
  | zero => rfl
  | succ n => rw [run, hrest, List.isEmpty_nil, if_pos rfl]

theorem run_succ (n : Nat) (hrest : s.rest ≠ []) : run (n + 1) s = s.step.bind (run n) := by
  rw [run, List.isEmpty_eq_false_iff.mpr hrest, if_neg Bool.false_ne_true]
  cases s.step with
  | error e => rfl
  | ok t => rfl

/-- Every bound that is large enough for a text gives the same. -/
theorem run_eq_run {m n : Nat} (hm : s.rest.length ≤ m) (hn : s.rest.length ≤ n) : run m s = run n s := by
  induction m generalizing n s with
  | zero =>
      have hrest := List.length_eq_zero_iff.mp (Nat.le_zero.mp hm)
      rw [run_of_nil n hrest, run_of_nil 0 hrest]
  | succ m ih =>
      by_cases hrest : s.rest = []
      · rw [run_of_nil n hrest, run_of_nil (m + 1) hrest]
      · have hpos := List.length_pos_iff.mpr hrest
        obtain ⟨k, rfl⟩ := Nat.exists_eq_add_one_of_ne_zero (by omega : n ≠ 0)
        rw [run_succ m hrest, run_succ k hrest]
        cases hstep : s.step with
        | error e => rfl
        | ok t =>
            have hlt := (step_move hrest hstep).length_lt hrest
            exact ih (by omega) (by omega)

/-- What every move keeps holds of a state in which the whole text is read. -/
theorem run_invariant (Inv : State → Prop)
    (hmove : ∀ {s t : State}, s.rest ≠ [] → Move s t → Inv s → Inv t)
    {bound : Nat} {d : Document} (hbound : s.rest.length ≤ bound) (hinv : Inv s)
    (h : run bound s = .ok d) :
    ∃ last : State, Inv last ∧ last.rest = [] ∧ last.finish = .ok d := by
  induction bound generalizing s with
  | zero =>
      have hrest : s.rest = [] := List.length_eq_zero_iff.mp (by omega)
      exact ⟨s, hinv, hrest, h⟩
  | succ bound ih =>
      unfold run at h
      split at h
      · rename_i hempty
        exact ⟨s, hinv, List.isEmpty_iff.mp hempty, h⟩
      · rename_i hempty
        have hrest : s.rest ≠ [] := fun hnil => hempty (by rw [hnil]; rfl)
        split at h
        · cases h
        · rename_i t hstep
          have hm := step_move hrest hstep
          have hlt := hm.length_lt hrest
          exact ih (by omega) (hmove hrest hm hinv) h

/-- What holds at the start of a text and is kept by every move holds of the state that a document is
made from, in which no element is open. -/
theorem parse_invariant (Inv : State → Prop)
    (hmove : ∀ {s t : State}, s.rest ≠ [] → Move s t → Inv s → Inv t)
    {source : List Char} {d : Document} (hstart : Inv { rest := source })
    (h : parse source = .ok d) :
    ∃ last : State, Inv last ∧ last.rest = [] ∧ last.frames = [] ∧
      d.children = last.flushed.reverse := by
  obtain ⟨last, hinv, hrest, hfinish⟩ := run_invariant Inv hmove (Nat.le_refl _) hstart h
  unfold finish at hfinish
  split at hfinish
  · rename_i hframes
    cases hfinish
    exact ⟨last, hinv, hrest, hframes, rfl⟩
  · cases hfinish

end State
end Markup
end StoryDocs
