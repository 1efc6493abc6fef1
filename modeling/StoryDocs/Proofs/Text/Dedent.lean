import StoryDocs.Proofs.Text.Trimming
import StoryDocs.Text.Dedent

/-!
# Lines of a dedented text

Cutting a text at its line feeds and cutting its parts there give the same pieces, except where two parts
meet.  The indentation that lines share is a part of each of them that is not blank, and dropping it leaves
the rest of the line, if it ends between two characters.
-/

namespace StoryDocs
namespace Text

variable {s t u v l x y : List Char} {ls : List (List Char)} {n : Nat}

/-! ## Pieces -/

theorem pieces_of_not_mem (h : '\n' ∉ l) : pieces l = [l] := by
  induction l with
  | nil => rfl
  | cons c l ih =>
      rw [List.mem_cons, not_or] at h
      have hc : (c == '\n') = false := by simpa using fun heq : c = '\n' => h.1 heq.symm
      rw [pieces, ih h.2, hc]
      rfl

theorem not_mem_of_mem_pieces (h : l ∈ pieces s) : '\n' ∉ l := by
  induction s generalizing l with
  | nil =>
      rw [List.mem_singleton.mp h]
      simp
  | cons c s ih =>
      rw [pieces] at h
      split at h
      · rcases List.mem_cons.mp h with rfl | h
        · simp
        · exact ih h
      · rename_i hc
        have hne : '\n' ≠ c := fun heq => hc (beq_iff_eq.mpr heq.symm)
        split at h
        · rename_i hnil
          exact absurd hnil (pieces_ne_nil s)
        · rename_i p ps hpieces
          rcases List.mem_cons.mp h with rfl | h
          · have hp : '\n' ∉ p := ih (by rw [hpieces]; exact List.mem_cons_self)
            rw [List.mem_cons, not_or]
            exact ⟨hne, hp⟩
          · exact ih (by rw [hpieces]; exact List.mem_cons_of_mem _ h)

/-- A character other than a line feed stands in a piece. -/
theorem exists_mem_pieces {c : Char} (hc : c ∈ s) (hfeed : c ≠ '\n') : ∃ l ∈ pieces s, c ∈ l := by
  induction s with
  | nil => cases hc
  | cons d s ih =>
      rw [pieces]
      split
      · rename_i hd
        rw [beq_iff_eq] at hd
        have hrest : c ∈ s := by
          rcases List.mem_cons.mp hc with rfl | hc
          · exact absurd hd hfeed
          · exact hc
        obtain ⟨l, hl, hcl⟩ := ih hrest
        exact ⟨l, List.mem_cons_of_mem _ hl, hcl⟩
      · cases hp : pieces s with
        | nil => exact absurd hp (pieces_ne_nil s)
        | cons p ps =>
            rw [hp] at ih
            rcases List.mem_cons.mp hc with rfl | hc
            · exact ⟨_, List.mem_cons_self, List.mem_cons_self⟩
            · obtain ⟨l, hl, hcl⟩ := ih hc
              rcases List.mem_cons.mp hl with rfl | hl
              · exact ⟨_, List.mem_cons_self, List.mem_cons_of_mem _ hcl⟩
              · exact ⟨l, List.mem_cons_of_mem _ hl, hcl⟩

/-- Where two texts meet, the last piece of the first one and the first piece of the second one join. -/
theorem pieces_append {ps qs : List (List Char)} (hu : pieces u = ps ++ [x]) (hv : pieces v = y :: qs) :
    pieces (u ++ v) = ps ++ (x ++ y) :: qs := by
  induction u generalizing ps x with
  | nil =>
      have hnil : ps = [] ∧ x = [] := by
        cases ps with
        | nil => exact ⟨rfl, (List.singleton_inj.mp hu).symm⟩
        | cons p ps => simp [pieces] at hu
      rw [hnil.1, hnil.2, List.nil_append, hv]
      rfl
  | cons c u ih =>
      rw [pieces] at hu
      rw [List.cons_append, pieces]
      split at hu
      · rename_i hc
        rw [if_pos hc]
        cases ps with
        | nil =>
            have htail : pieces u = [] := (List.cons.inj hu).2
            exact absurd htail (pieces_ne_nil u)
        | cons p ps =>
            obtain ⟨rfl, htail⟩ := List.cons.inj hu
            rw [ih htail]
            rfl
      · rename_i hc
        rw [if_neg hc]
        split at hu
        · rename_i hnil
          exact absurd hnil (pieces_ne_nil u)
        · rename_i p ps' hpieces
          cases ps with
          | nil =>
              obtain ⟨rfl, rfl⟩ := List.cons.inj hu
              have hjoin := @ih p [] hpieces
              rw [List.nil_append] at hjoin
              rw [hjoin]
              rfl
          | cons q ps =>
              obtain ⟨rfl, rfl⟩ := List.cons.inj hu
              have hjoin := @ih x (p :: ps) hpieces
              rw [List.cons_append] at hjoin
              rw [hjoin]
              rfl

theorem exists_pieces_concat (s : List Char) : ∃ ps x, pieces s = ps ++ [x] :=
  ⟨(pieces s).dropLast, (pieces s).getLast (pieces_ne_nil s),
    (List.dropLast_concat_getLast (pieces_ne_nil s)).symm⟩

theorem exists_pieces_cons (s : List Char) : ∃ y qs, pieces s = y :: qs :=
  ⟨_, _, (List.cons_head_tail (pieces_ne_nil s)).symm⟩

/-- The pieces between the line feeds that lines are joined with are these lines. -/
theorem pieces_unlines (hne : ls ≠ []) (h : ∀ l ∈ ls, '\n' ∉ l) : pieces (unlines ls) = ls := by
  induction ls with
  | nil => exact absurd rfl hne
  | cons l ls ih =>
      rw [List.forall_mem_cons] at h
      cases ls with
      | nil => exact pieces_of_not_mem h.1
      | cons m ls =>
          have hrest := ih (by simp) h.2
          have hfeed : pieces ('\n' :: unlines (m :: ls)) = [] :: m :: ls := by
            rw [pieces, if_pos (beq_self_eq_true _), hrest]
          have hfront : pieces l = [] ++ [l] := pieces_of_not_mem h.1
          have hjoin := pieces_append hfront hfeed
          rw [List.append_nil] at hjoin
          exact hjoin

theorem append_unlines (u l : List Char) (ls : List (List Char)) :
    u ++ unlines (l :: ls) = unlines ((u ++ l) :: ls) := by
  cases ls with
  | nil => rfl
  | cons m ls =>
      show u ++ (l ++ '\n' :: unlines (m :: ls)) = u ++ l ++ '\n' :: unlines (m :: ls)
      rw [List.append_assoc]

theorem exists_unlines_front (front : List (List Char)) (u l : List Char) (ls : List (List Char)) :
    ∃ lead, unlines (front ++ (u ++ l) :: ls) = lead ++ unlines (l :: ls) := by
  induction front with
  | nil => exact ⟨u, (append_unlines u l ls).symm⟩
  | cons m front ih =>
      obtain ⟨lead, hlead⟩ := ih
      refine ⟨m ++ '\n' :: lead, ?_⟩
      rw [List.cons_append, unlines_cons (by simp), hlead, List.append_assoc, List.cons_append]

theorem unlines_end (ms : List (List Char)) (l v : List Char) (ls : List (List Char)) :
    unlines (ms ++ (l ++ v) :: ls) = unlines (ms ++ [l]) ++ unlines (v :: ls) := by
  induction ms with
  | nil => exact (append_unlines l v ls).symm
  | cons m ms ih =>
      rw [List.cons_append, List.cons_append, unlines_cons (by simp), unlines_cons (by simp), ih,
        List.append_assoc, List.cons_append]

theorem unlines_concat (hne : ls ≠ []) (l : List Char) : unlines (ls ++ [l]) = unlines ls ++ '\n' :: l := by
  induction ls with
  | nil => exact absurd rfl hne
  | cons m ls ih =>
      cases ls with
      | nil => rfl
      | cons k ls =>
          have hrest := ih (by simp)
          show m ++ '\n' :: unlines (k :: ls ++ [l]) = m ++ '\n' :: unlines (k :: ls) ++ '\n' :: l
          rw [hrest, List.append_assoc, List.cons_append]

/-- A text with a line feed has a first and a last piece. -/
theorem exists_pieces_ends (h : '\n' ∈ s) : ∃ first ms last, pieces s = first :: (ms ++ [last]) := by
  obtain ⟨ps, last, hpieces⟩ := exists_pieces_concat s
  cases ps with
  | nil =>
      have hwhole : last = s := by
        have hjoined := unlines_pieces s
        rwa [hpieces] at hjoined
      have hlast : '\n' ∉ last := not_mem_of_mem_pieces (by rw [hpieces]; simp)
      rw [hwhole] at hlast
      exact absurd h hlast
  | cons first ms => exact ⟨first, ms, last, hpieces⟩

theorem not_mem_feed_iff {ps : List (List Char)} (h : pieces s = ps ++ [x]) : '\n' ∉ s ↔ ps = [] := by
  constructor
  · intro hfeed
    rw [pieces_of_not_mem hfeed] at h
    cases ps with
    | nil => rfl
    | cons p ps => simp at h
  · rintro rfl hfeed
    obtain ⟨first, ms, last, hends⟩ := exists_pieces_ends hfeed
    rw [h] at hends
    simp at hends

/-! ## Lines -/

theorem dropReturn_append (hv : v ≠ []) : dropReturn (u ++ v) = u ++ dropReturn v := by
  induction u with
  | nil => rfl
  | cons c u ih =>
      have hne : u ++ v ≠ [] := fun h => hv (List.append_eq_nil_iff.mp h).2
      obtain ⟨d, w, hw⟩ := List.exists_cons_of_ne_nil hne
      rw [List.cons_append, List.cons_append, ← ih, hw]
      rfl

/-- A line end keeps a text that does not end with a carriage return. -/
theorem dropReturn_of_getLast? {c : Char} (h : l.getLast? = some c) (hc : c ≠ '\r') :
    dropReturn l = l := by
  obtain ⟨front, rfl⟩ := List.getLast?_eq_some_iff.mp h
  rw [dropReturn_append (by simp)]
  simp [dropReturn, hc]

theorem terminated_append {ps qs : List (List Char)} (hqs : qs ≠ []) :
    terminated (ps ++ qs) = ps.map dropReturn ++ terminated qs := by
  induction ps with
  | nil => rfl
  | cons p ps ih =>
      have hne : ps ++ qs ≠ [] := fun h => hqs (List.append_eq_nil_iff.mp h).2
      obtain ⟨q, rest, hrest⟩ := List.exists_cons_of_ne_nil hne
      rw [List.cons_append, List.map_cons, List.cons_append, ← ih, hrest]
      rfl

/-- A line end takes at most a carriage return. -/
theorem exists_dropReturn_append (l : List Char) :
    ∃ back, l = dropReturn l ++ back ∧ allBlank back = true := by
  cases hlast : l.getLast? with
  | none =>
      rw [List.getLast?_eq_none_iff.mp hlast]
      exact ⟨[], rfl, rfl⟩
  | some c =>
      by_cases hc : c = '\r'
      · obtain ⟨front, rfl⟩ := List.getLast?_eq_some_iff.mp hlast
        have hdrop : dropReturn (front ++ [c]) = front := by
          rw [dropReturn_append (by simp), hc]
          exact List.append_nil front
        exact ⟨[c], by rw [hdrop], by rw [hc]; rfl⟩
      · exact ⟨[], by rw [dropReturn_of_getLast? hlast hc, List.append_nil], rfl⟩

theorem dropReturn_subset (l : List Char) : dropReturn l ⊆ l := by
  obtain ⟨back, hsplit, _⟩ := exists_dropReturn_append l
  intro c hc
  rw [hsplit]
  exact List.mem_append_left _ hc

/-- Lines hold no line feeds. -/
theorem not_mem_of_mem_lines (h : l ∈ lines s) : '\n' ∉ l := by
  have hterminated : ∀ {ps : List (List Char)}, (∀ p ∈ ps, '\n' ∉ p) →
      ∀ l ∈ terminated ps, '\n' ∉ l := by
    intro ps hps
    induction ps with
    | nil => simp [terminated]
    | cons p ps ih =>
        rw [List.forall_mem_cons] at hps
        cases ps with
        | nil =>
            intro l hl
            simp only [terminated] at hl
            split at hl
            · cases hl
            · rw [List.mem_singleton.mp hl]
              exact hps.1
        | cons q ps =>
            intro l hl
            rcases List.mem_cons.mp hl with rfl | hl
            · exact fun hmem => hps.1 (dropReturn_subset p hmem)
            · exact ih hps.2 l hl
  exact hterminated (fun p hp => not_mem_of_mem_pieces hp) l h

/-- Lines that end with code are the lines of their pieces. -/
theorem terminated_of_trimmed (h : ∀ l ∈ ls, dropReturn l = l) (hlast : ls.getLast? ≠ some []) :
    terminated ls = ls := by
  induction ls with
  | nil => rfl
  | cons l ls ih =>
      rw [List.forall_mem_cons] at h
      cases ls with
      | nil =>
          have hl : l ≠ [] := by simpa using hlast
          simp [terminated, hl]
      | cons m ls =>
          have hrest := ih h.2 (by simpa using hlast)
          rw [terminated, h.1, hrest]
          simp

/-- Such lines are those of their pieces if none is missing at the end. -/
theorem terminated_of_length (h : ∀ l ∈ ls, dropReturn l = l)
    (hlength : (terminated ls).length = ls.length) : terminated ls = ls := by
  refine terminated_of_trimmed h ?_
  intro hlast
  obtain ⟨front, rfl⟩ := List.getLast?_eq_some_iff.mp hlast
  rw [terminated_append (by simp)] at hlength
  simp [terminated] at hlength

/-- A piece that starts with a text that ends with code is a line that starts with it. -/
theorem exists_terminated_cons {c : Char} (hlast : u.getLast? = some c) (hc : c ≠ '\r')
    (ps : List (List Char)) : ∃ v' ls, terminated ((u ++ v) :: ps) = (u ++ v') :: ls := by
  have hne : u ≠ [] := by
    rintro rfl
    cases hlast
  cases ps with
  | nil => exact ⟨v, [], by simp [terminated, hne]⟩
  | cons p ps =>
      cases v with
      | nil =>
          refine ⟨[], terminated (p :: ps), ?_⟩
          rw [List.append_nil, terminated, dropReturn_of_getLast? hlast hc]
          simp
      | cons d v =>
          refine ⟨dropReturn (d :: v), terminated (p :: ps), ?_⟩
          rw [terminated, dropReturn_append (by simp)]
          simp

theorem trimEnd_append (hv : allBlank v = false) : trimEnd (u ++ v) = u ++ trimEnd v := by
  have hne : trimEnd v ≠ [] := fun h => by
    rw [trimEnd, dropTail_eq_nil_iff] at h
    rw [allBlank, h] at hv
    cases hv
  induction u with
  | nil => rfl
  | cons c u ih =>
      have hstep : trimEnd (c :: (u ++ v)) = c :: trimEnd (u ++ v) := by
        show dropTail isBlank (c :: (u ++ v)) = _
        rw [dropTail]
        split
        · rename_i hnil
          have hnil' : trimEnd (u ++ v) = [] := hnil
          rw [ih] at hnil'
          exact absurd (List.append_eq_nil_iff.mp hnil').2 hne
        · rfl
      rw [List.cons_append, hstep, ih]
      rfl

/-- A trimmed text is empty or ends with a character that is not blank. -/
theorem getLast?_trimEnd {c : Char} (h : (trimEnd s).getLast? = some c) : isBlank c = false := by
  rw [trimEnd] at h
  induction s with
  | nil => cases h
  | cons d s ih =>
      rw [dropTail] at h
      split at h
      · split at h
        · cases h
        · rename_i hd
          have hlast : d = c := by simpa using h
          rw [← hlast]
          simpa using hd
      · rename_i hne
        rw [List.getLast?_cons, Option.some.injEq] at h
        refine ih ?_
        rw [← h]
        cases hlast : (dropTail isBlank s).getLast? with
        | none => exact absurd (List.getLast?_eq_none_iff.mp hlast) hne
        | some e => rfl

theorem trimEnd_subset (s : List Char) : trimEnd s ⊆ s := by
  obtain ⟨tail, hsplit, _⟩ := exists_dropTail_append isBlank s
  intro c hc
  rw [hsplit]
  exact List.mem_append_left _ hc

theorem dropReturn_trimEnd (s : List Char) : dropReturn (trimEnd s) = trimEnd s := by
  cases h : (trimEnd s).getLast? with
  | none =>
      rw [List.getLast?_eq_none_iff.mp h]
      rfl
  | some c =>
      refine dropReturn_of_getLast? h ?_
      rintro rfl
      exact absurd (getLast?_trimEnd h) (by decide)

/-- A blank at the end is dropped. -/
theorem trimEnd_concat {c : Char} (hc : isBlank c = true) : trimEnd (s ++ [c]) = trimEnd s := by
  induction s with
  | nil => simp [trimEnd, dropTail, hc]
  | cons d s ih =>
      rw [trimEnd] at ih ⊢
      rw [List.cons_append, dropTail, ih]
      rfl

/-- Blanks at the end are dropped. -/
theorem trimEnd_append_blank (hv : allBlank v = true) : trimEnd (u ++ v) = trimEnd u := by
  induction v generalizing u with
  | nil => rw [List.append_nil]
  | cons c v ih =>
      have hblank : isBlank c = true ∧ allBlank v = true := by simpa [allBlank] using hv
      rw [List.append_cons, ih hblank.2, trimEnd_concat hblank.1]

/-- Blanks around a text are trimmed with its own. -/
theorem trim_between_blanks (hu : allBlank u = true) (hv : allBlank v = true) :
    trim (u ++ s ++ v) = trim s := by
  have hstart : ∀ w x, allBlank w = true → trimStart (w ++ x) = trimStart x := fun w x hw =>
    List.dropWhile_append_of_pos fun c hc => List.all_eq_true.mp hw c hc
  rw [trim, trim, List.append_assoc, hstart u _ hu, trimStart, List.dropWhile_append]
  split
  · rename_i hnil
    have hs : trimStart s = [] := List.isEmpty_iff.mp hnil
    have hrest : v.dropWhile isBlank = [] := by
      have hwhole := hstart v [] hv
      rwa [List.append_nil] at hwhole
    rw [hs, hrest]
  · exact trimEnd_append_blank hv

theorem trim_eq_nil_iff : trim s = [] ↔ allBlank s = true := by
  constructor
  · intro hnil
    obtain ⟨front, back, hsplit, hfront, hback⟩ := exists_trim s
    rw [hnil, List.append_nil] at hsplit
    rw [hsplit, allBlank, List.all_append, Bool.and_eq_true]
    exact ⟨hfront, hback⟩
  · intro hs
    have htrim := @trim_between_blanks [] s [] hs rfl
    rwa [List.append_nil, List.append_nil] at htrim

theorem trimEnd_dropReturn (l : List Char) : trimEnd (dropReturn l) = trimEnd l := by
  obtain ⟨back, hsplit, hback⟩ := exists_dropReturn_append l
  have htrim := @trimEnd_append_blank (dropReturn l) back hback
  rw [← hsplit] at htrim
  exact htrim.symm

theorem trim_dropReturn (l : List Char) : trim (dropReturn l) = trim l := by
  obtain ⟨back, hsplit, hback⟩ := exists_dropReturn_append l
  have htrim := @trim_between_blanks (dropReturn l) [] back rfl hback
  rw [List.nil_append, ← hsplit] at htrim
  exact htrim.symm

/-! ## Shared indentation -/

@[simp] theorem byteSize_append (u v : List Char) : byteSize (u ++ v) = byteSize u + byteSize v := by
  induction u with
  | nil => simp [byteSize]
  | cons c u ih =>
      rw [List.cons_append, byteSize, byteSize, ih]
      omega

theorem dropBytes_subset (n : Nat) (s : List Char) : dropBytes n s ⊆ s := by
  fun_induction dropBytes n s with
  | case1 s => exact List.Subset.refl _
  | case2 => exact List.Subset.refl _
  | case3 n c s _ ih => exact fun d hd => List.mem_cons_of_mem _ (ih hd)
  | case4 => exact List.nil_subset _

theorem dropBytes_byteSize (u v : List Char) : dropBytes (byteSize u) (u ++ v) = v := by
  induction u with
  | nil => simp [byteSize, dropBytes]
  | cons c u ih =>
      have hpos := c.utf8Size_pos
      obtain ⟨m, hm⟩ : ∃ m, byteSize (c :: u) = m + 1 :=
        ⟨c.utf8Size + byteSize u - 1, by rw [byteSize]; omega⟩
      have hsize : c.utf8Size + byteSize u = m + 1 := by rw [← hm, byteSize]
      rw [hm, List.cons_append, dropBytes, if_pos (by omega)]
      have hrest : m + 1 - c.utf8Size = byteSize u := by omega
      rw [hrest, ih]

/-- What stands behind code is trimmed as it would be alone. -/
theorem trimEnd_append_of_getLast? {c : Char} (hlast : u.getLast? = some c) (hc : isBlank c = false)
    (v : List Char) : trimEnd (u ++ v) = u ++ trimEnd v := by
  by_cases hv : allBlank v = true
  · have hnil : trimEnd v = [] := dropTail_eq_nil_iff.mpr hv
    rw [hnil, List.append_nil]
    obtain ⟨tail, hsplit, htail⟩ := exists_dropTail_append isBlank (u ++ v)
    obtain ⟨front, rfl⟩ := List.getLast?_eq_some_iff.mp hlast
    have hblank : allBlank ([c] ++ v) = false := by simp [allBlank, hc]
    rw [List.append_assoc, trimEnd_append hblank]
    have hone : trimEnd ([c] ++ v) = [c] := by
      have hall : dropTail isBlank v = [] := hnil
      simp [trimEnd, dropTail, hall, hc]
    rw [hone]
  · exact trimEnd_append (by simpa using hv)

/-- The indentation of a line does not depend on what stands behind its code. -/
theorem takeWhile_isBlank_append (hu : allBlank u = false) :
    (u ++ v).takeWhile isBlank = u.takeWhile isBlank := by
  rw [List.takeWhile_append]
  split
  · rename_i hlength
    have htake : u.takeWhile isBlank = u := (List.takeWhile_prefix _).eq_of_length hlength
    have hall : u.all isBlank = true := by
      rw [← htake]
      exact List.all_takeWhile
    rw [allBlank, hall] at hu
    cases hu
  · rfl

theorem indentSize_append (hu : allBlank u = false) : indentSize (u ++ v) = indentSize u := by
  rw [indentSize, indentSize, takeWhile_isBlank_append hu]

/-- No line has less indentation than the lines share. -/
theorem sharedIndent_le (hl : l ∈ ls) (hcode : allBlank l = false) : sharedIndent ls ≤ indentSize l := by
  have hmem : indentSize l ∈ (ls.filter fun l => !allBlank l).map indentSize :=
    List.mem_map_of_mem (List.mem_filter.mpr ⟨hl, by simp [hcode]⟩)
  rw [sharedIndent]
  cases hmin : ((ls.filter fun l => !allBlank l).map indentSize).min? with
  | none =>
      rw [List.min?_eq_none_iff.mp hmin] at hmem
      cases hmem
  | some m => exact (List.min?_eq_some_iff.mp hmin).2 _ hmem

/-- The first `n` bytes of a line are characters of their own. -/
def CutsBetween (n : Nat) (l : List Char) : Prop :=
  ∃ front, l = front ++ dropBytes n l ∧ byteSize front = n

theorem cutsBetween_iff : CutsBetween n l ↔ ∃ front, front <+: l ∧ byteSize front = n := by
  constructor
  · rintro ⟨front, hsplit, hsize⟩
    exact ⟨front, ⟨_, hsplit.symm⟩, hsize⟩
  · rintro ⟨front, ⟨rest, rfl⟩, rfl⟩
    exact ⟨front, by rw [dropBytes_byteSize], rfl⟩

/-- Nothing is left of a line that is cut inside a character. -/
theorem dropBytes_eq_nil (h : ¬ CutsBetween n l) : dropBytes n l = [] := by
  fun_induction dropBytes n l with
  | case1 l => exact absurd (cutsBetween_iff.mpr ⟨[], List.nil_prefix, rfl⟩) h
  | case2 => rfl
  | case3 n c l hle ih =>
      refine ih fun hcuts => h ?_
      obtain ⟨front, hfront, hsize⟩ := cutsBetween_iff.mp hcuts
      refine cutsBetween_iff.mpr ⟨c :: front, (List.prefix_cons_inj c).mpr hfront, ?_⟩
      rw [byteSize, hsize]
      omega
  | case4 => rfl

theorem eq_nil_of_byteSize (h : byteSize u = 0) : u = [] := by
  cases u with
  | nil => rfl
  | cons c u =>
      have hpos := c.utf8Size_pos
      rw [byteSize] at h
      omega

/-- What is cut from the indentation of a line is blank. -/
theorem CutsBetween.exists_blank (h : CutsBetween n l) (hn : n ≤ indentSize l) :
    ∃ front, l = front ++ dropBytes n l ∧ byteSize front = n ∧ allBlank front = true := by
  obtain ⟨front, hsplit, hsize⟩ := h
  have hfront : front <+: l := ⟨_, hsplit.symm⟩
  have hblank : l.takeWhile isBlank <+: l := List.takeWhile_prefix _
  have hinside : front <+: l.takeWhile isBlank := by
    rcases List.prefix_or_prefix_of_prefix hfront hblank with hle | ⟨more, hmore⟩
    · exact hle
    · have hsizes := congrArg byteSize hmore
      rw [byteSize_append, hsize] at hsizes
      rw [indentSize] at hn
      have hnil : more = [] := eq_nil_of_byteSize (by omega)
      rw [hnil, List.append_nil] at hmore
      exact hmore ▸ List.prefix_rfl
  refine ⟨front, hsplit, hsize, ?_⟩
  rw [allBlank, List.all_eq_true]
  intro c hc
  exact List.all_eq_true.mp List.all_takeWhile c (hinside.subset hc)

/-- A dedented text has a piece for each line, and the first one is as it was. -/
theorem pieces_dedent {first : List Char} (hlines : lines s = first :: ls) :
    pieces (dedent s) = first :: ls.map fun l => trimEnd (dropBytes (sharedIndent ls) l) := by
  have hfeeds : ∀ l ∈ first :: ls, '\n' ∉ l := by
    rw [← hlines]
    exact fun l hl => not_mem_of_mem_lines hl
  rw [List.forall_mem_cons] at hfeeds
  rw [dedent, hlines]
  refine pieces_unlines (by simp) ?_
  rw [List.forall_mem_cons]
  refine ⟨hfeeds.1, fun l hl => ?_⟩
  obtain ⟨m, hm, rfl⟩ := List.mem_map.mp hl
  exact fun hmem => hfeeds.2 m hm (dropBytes_subset _ m (trimEnd_subset _ hmem))

end Text
end StoryDocs
