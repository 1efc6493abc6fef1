import StoryDocs.Proofs.Story.Remaining

/-!
# Extraction leaves what remains

Of a steady document, extraction leaves exactly what `Remains` says, also when its script blocks have got
other texts before.
-/

namespace StoryDocs

open Text Markup

/-! ## Prose next to a removed story -/

theorem dropTail_append {p : Char → Bool} {s tail : List Char} (htail : tail.all p = true) :
    dropTail p (s ++ tail) = dropTail p s := by
  induction s with
  | nil => exact dropTail_eq_nil_iff.mpr htail
  | cons c s ih => rw [List.cons_append, dropTail, dropTail, ih]

/-- The last line of a text does not look behind a line feed. -/
theorem lastLine_append_feed {s : List Char} (hs : s.getLast? = some '\n') (t : List Char) :
    lastLine (s ++ t) = lastLine t := by
  obtain ⟨body, rfl⟩ := List.getLast?_eq_some_iff.mp hs
  have hreverse : (body ++ ['\n'] ++ t).reverse = t.reverse ++ '\n' :: body.reverse := by simp
  rw [lastLine, lastLine, hreverse, (takeWhile_stop (by decide) _ _).1]

/-- Blank lines are dropped up to a line that is not blank, which is the first line or stands behind a line
feed. -/
theorem dropBlankLines_cases (ls : List (List Char)) :
    dropBlankLines ls = [] ∨ dropBlankLines ls = ls ∨
      ∃ blanks, unlines ls = blanks ++ unlines (dropBlankLines ls) ∧ allBlank blanks = true ∧
        blanks.getLast? = some '\n' := by
  induction ls with
  | nil => exact .inl rfl
  | cons l ls ih =>
      cases ls with
      | nil =>
          rw [dropBlankLines]
          split
          · exact .inl rfl
          · exact .inr (.inl rfl)
      | cons m ls =>
          rw [dropBlankLines]
          · split
            · rename_i hblank
              have hlead : allBlank (l ++ ['\n']) = true := by
                rw [allBlank, List.all_append, Bool.and_eq_true]
                exact ⟨hblank, by decide⟩
              rcases ih with hnil | hsame | ⟨blanks, hsplit, hall, hlast⟩
              · exact .inl hnil
              · refine .inr (.inr ⟨l ++ ['\n'], ?_, hlead, by simp⟩)
                rw [hsame, unlines_cons (by simp), List.append_assoc]
                rfl
              · refine .inr (.inr ⟨l ++ ['\n'] ++ blanks, ?_, ?_, ?_⟩)
                · rw [unlines_cons (by simp), hsplit]
                  simp
                · rw [allBlank, List.all_append, Bool.and_eq_true]
                  exact ⟨hlead, hall⟩
                · rw [List.getLast?_append, hlast]
                  rfl
            · exact .inr (.inl rfl)
          · simp

/-- Behind a removed story prose is dropped if it is blank; else it loses blank lines. -/
theorem stripLine_cases {value : List Char} (hline : allBlank (restOfLine value) = true) :
    (allBlank value = true ∧ stripLine value = []) ∨
      ∃ blanks, value = blanks ++ stripLine value ∧ allBlank blanks = true ∧
        blanks.getLast? = some '\n' ∧ stripLine value ≠ [] := by
  by_cases hnil : stripLine value = []
  · obtain ⟨lead, hsplit, hblank⟩ := exists_append_stripLine value
    rw [hnil, List.append_nil] at hsplit
    exact .inl ⟨by rw [hsplit]; exact hblank, hnil⟩
  · right
    obtain ⟨ls, hpieces, _⟩ := pieces_eq_cons value
    rcases dropBlankLines_cases (pieces value) with hdropped | hsame | ⟨blanks, hsplit, hall, hlast⟩
    · rw [stripLine, hdropped] at hnil
      exact absurd rfl hnil
    · -- The first line is blank, so it is not kept.
      obtain ⟨_, hdropped | ⟨l, rest, hcons, hblank⟩⟩ := dropBlankLines_spec (pieces value)
      · rw [stripLine, hdropped] at hnil
        exact absurd rfl hnil
      · rw [hsame, hpieces] at hcons
        rw [← (List.cons.inj hcons).1, hline] at hblank
        cases hblank
    · rw [unlines_pieces] at hsplit
      exact ⟨blanks, hsplit, hall, hlast, hnil⟩

/-! ## Removed stories -/

/-- Nodes that start with a story that is removed with its line. -/
def StartsRemoved (nodes : List Node) : Prop :=
  ∃ tag children rest, nodes = .element tag children :: rest ∧ tag.name = storyElement ∧
    Story.literalName? tag = none ∧ tag.flow = true

namespace StartsRemoved

variable {nodes : List Node}

/-- The indent before a removed story is dropped in any case. -/
theorem extractFrom_trimIndent (h : StartsRemoved nodes) {done : List Node}
    (hsettled : Settled (trimIndent done)) (ns : List Char) (strip : Bool) (c : Collected) :
    extractFrom ns nodes strip done c = extractFrom ns nodes strip (trimIndent done) c := by
  obtain ⟨tag, children, rest, rfl, hname, hliteral, hflow⟩ := h
  rw [extractFrom_unnamed hname hliteral, extractFrom_unnamed hname hliteral, hflow, if_pos rfl, if_pos rfl,
    hsettled]

/-- Before a removed story prose ends with an indent. -/
theorem exists_indent (h : StartsRemoved nodes) {b : Bool} {value : List Char}
    (hindented : Indented (indentAfter b value) nodes) :
    ∃ u w, value = u ++ w ∧ w.all isIndent = true ∧ (u.getLast? = some '\n' ∨ u = [] ∧ b = true) := by
  obtain ⟨tag, children, rest, rfl, _, _, hflow⟩ := h
  cases hindented with
  | element hmargin _ _ => exact Markup.exists_indent (hmargin hflow)

end StartsRemoved

/-! ## Script blocks with other texts -/

/-- A node and what stands in its place before extraction: a script block can have another text, which `r`
relates to its own. -/
inductive Replaces (r : List Char → List Char → Prop) : Node → Node → Prop
  | keep {n : Node} (hn : ∀ v, n ≠ .script v) : Replaces r n n
  | script {old new : List Char} (h : r old new) : Replaces r (.script old) (.script new)

/-- A script text that can stand where another one stood: it is a block too and has no new matches for runs of
backticks. -/
structure Supplants (old new : List Char) : Prop where
  block : Block new
  runs : RunsKept old new

theorem Replaces.eq_of_element {r : List Char → List Char → Prop} {tag : Tag} {children : List Node}
    {n : Node} (h : Replaces r (.element tag children) n) : n = .element tag children := by
  cases h with
  | keep => rfl

theorem StartsRemoved.of_replaces {r : List Char → List Char → Prop} {nodes imported : List Node}
    (h : StartsRemoved nodes) (hreplaces : List.Forall₂ (Replaces r) nodes imported) :
    StartsRemoved imported := by
  obtain ⟨tag, children, rest, rfl, hname, hliteral, hflow⟩ := h
  cases hreplaces with
  | cons hfirst _ =>
      rw [hfirst.eq_of_element]
      exact ⟨tag, children, _, rfl, hname, hliteral, hflow⟩

/-- Inside elements there are no script blocks. -/
theorem Steady.replaces_self {visited : Bool} {nodes : List Node} (h : Steady visited false nodes)
    (r : List Char → List Char → Prop) : List.Forall₂ (Replaces r) nodes nodes := by
  generalize houtside : false = outside at h
  induction h with
  | nil => exact .nil
  | text _ _ ih => exact .cons (.keep fun _ => Node.noConfusion) (ih houtside)
  | script => cases houtside
  | expression _ _ ih => exact .cons (.keep fun _ => Node.noConfusion) (ih houtside)
  | kept _ _ _ _ _ _ ih => exact .cons (.keep fun _ => Node.noConfusion) (ih houtside)
  | metadata _ _ _ _ ih => exact .cons (.keep fun _ => Node.noConfusion) (ih houtside)
  | named _ _ _ ih => exact .cons (.keep fun _ => Node.noConfusion) (ih houtside)
  | removed _ _ _ _ _ ih => exact .cons (.keep fun _ => Node.noConfusion) (ih houtside)

/-! ## Extraction -/

/-- Whether the line of a removed story goes on. -/
def Spot.strips : Spot → Bool
  | .removed => true
  | _ => false

/-- Extraction leaves what remains of `nodes` when it goes through `imported` in their place. -/
def Leaves (ns : List Char) (outside : Bool) (spot : Spot) (nodes imported : List Node) : Prop :=
  ∃ ms, Remains ns outside spot nodes ms ∧
    ∀ done c, (spot ≠ .inline → Settled done) →
      (extractFrom ns imported spot.strips done c).1 = done.reverse ++ ms

namespace Leaves

variable {ns : List Char} {outside : Bool} {spot : Spot} {nodes imported : List Node}

/-- Extraction puts one node behind those that are done. -/
theorem cons {n m k : Node}
    (hremains : ∀ ms, Remains ns outside .inline nodes ms → Remains ns outside spot (n :: nodes) (k :: ms))
    (hstep : ∀ done c, ∃ c', extractFrom ns (m :: imported) spot.strips done c =
      extractFrom ns imported false (k :: done) c')
    (h : Leaves ns outside .inline nodes imported) :
    Leaves ns outside spot (n :: nodes) (m :: imported) := by
  obtain ⟨ms, hrest, hextract⟩ := h
  refine ⟨k :: ms, hremains ms hrest, fun done c _ => ?_⟩
  obtain ⟨c', hc'⟩ := hstep done c
  have hleft : (extractFrom ns imported false (k :: done) c').1 = (k :: done).reverse ++ ms :=
    hextract (k :: done) c' fun hne => absurd rfl hne
  rw [hc', hleft]
  simp

/-- Prose before a removed story loses its indent. -/
theorem trimmed {value indent : List Char} (hremoved : StartsRemoved nodes) (hspot : spot ≠ .removed)
    (hvalue : value.getLast? = some '\n' ∨ value = [] ∧ spot = .fresh)
    (hindent : indent.all isIndent = true) (himported : StartsRemoved imported)
    (h : Leaves ns outside .fresh nodes imported) :
    Leaves ns outside spot (.text (value ++ indent) :: nodes) (.text (value ++ indent) :: imported) := by
  obtain ⟨ms, hremains, hextract⟩ := h
  obtain ⟨tag, children, rest, rfl, _, _, _⟩ := hremoved
  have hstrips : spot.strips = false := by
    cases spot with
    | removed => exact absurd rfl hspot
    | inline | fresh => rfl
  -- The step over the prose, and the next one, which drops the indent.
  have hstep : ∀ done kept c, trimIndent (.text (value ++ indent) :: done) = kept → Settled kept →
      (extractFrom ns (.text (value ++ indent) :: imported) spot.strips done c).1 = kept.reverse ++ ms := by
    rintro done _ c rfl hsettled
    rw [hstrips, extractFrom_text, if_neg Bool.false_ne_true, List.singleton_append,
      himported.extractFrom_trimIndent hsettled]
    exact hextract _ c fun _ => hsettled
  rcases hvalue with hfeed | ⟨rfl, rfl⟩
  · have hne : value ≠ [] := by
      rintro rfl
      cases hfeed
    refine ⟨.text value :: ms, .trimmed hspot hfeed hindent hremains, fun done c _ => ?_⟩
    have hkept : trimIndent (.text (value ++ indent) :: done) = .text value :: done := by
      rw [trimIndent_text, dropTail_append hindent, dropTail_of_getLast? hfeed (by decide), if_neg hne]
    rw [hstep done _ c hkept (.of_getLast? hfeed)]
    simp
  · refine ⟨ms, .indent hindent hremains, fun done c hsettled => ?_⟩
    have hkept : trimIndent (.text ([] ++ indent) :: done) = done := by
      rw [trimIndent_text, dropTail_append hindent]
      rfl
    exact hstep done _ c hkept (hsettled (by decide))

/-- Prose that is kept, up to an indent before a removed story. -/
theorem text {value : List Char} (hspot : spot ≠ .removed) (hnext : ∀ v, nodes.head? ≠ some (.text v))
    (hticks : outside = false ∨ nodes ≠ [] →
      startsWith fenceTicks ((lastLine value).dropWhile isIndent) = false)
    (hindent : StartsRemoved nodes → ∃ u w, value = u ++ w ∧ w.all isIndent = true ∧
      (u.getLast? = some '\n' ∨ u = [] ∧ spot = .fresh))
    (hreplaces : List.Forall₂ (Replaces Supplants) nodes imported)
    (hinline : ¬ StartsRemoved nodes → Leaves ns outside .inline nodes imported)
    (hfresh : StartsRemoved nodes → Leaves ns outside .fresh nodes imported) :
    Leaves ns outside spot (.text value :: nodes) (.text value :: imported) := by
  by_cases hremoved : StartsRemoved nodes
  · obtain ⟨u, w, rfl, hw, hu⟩ := hindent hremoved
    exact trimmed hremoved hspot hu hw (hremoved.of_replaces hreplaces) (hfresh hremoved)
  · refine cons (fun ms => .text hspot hnext hticks) (fun done c => ⟨c, ?_⟩) (hinline hremoved)
    cases spot with
    | removed => exact absurd rfl hspot
    | inline => exact extractFrom_text value
    | fresh => exact extractFrom_text value

/-- Prose behind a removed story loses its line and blank lines. -/
theorem stripped {value : List Char} (hnext : ∀ v, nodes.head? ≠ some (.text v))
    (hticks : outside = false ∨ nodes ≠ [] →
      startsWith fenceTicks ((lastLine value).dropWhile isIndent) = false)
    (hline : allBlank (restOfLine value) = true) (hindented : Indented (indentAfter false value) nodes)
    (hreplaces : List.Forall₂ (Replaces Supplants) nodes imported)
    (hinline : ¬ StartsRemoved nodes → Leaves ns outside .inline nodes imported)
    (hfresh : Leaves ns outside .fresh nodes imported) :
    Leaves ns outside .removed (.text value :: nodes) (.text value :: imported) := by
  rcases stripLine_cases hline with ⟨hblank, hnil⟩ | ⟨blanks, hsplit, hblank, hfeed, hne⟩
  · obtain ⟨ms, hremains, hextract⟩ := hfresh
    refine ⟨ms, .blank hblank hnext hremains, fun done c hsettled => ?_⟩
    show (extractFrom ns (.text value :: imported) true done c).1 = _
    rw [extractFrom_text, if_pos rfl, stripNode, hnil]
    exact hextract done c fun _ => hsettled (by decide)
  · have hlast : lastLine value = lastLine (stripLine value) := by
      rw [hsplit, lastLine_append_feed hfeed, ← hsplit]
    rw [hlast] at hticks
    obtain ⟨ms, hremains, hextract⟩ : Leaves ns outside .inline (.text (stripLine value) :: nodes)
        (.text (stripLine value) :: imported) := by
      refine text (by decide) hnext hticks (fun hremoved => ?_) hreplaces hinline fun _ => hfresh
      rw [hsplit, indentAfter_append, indentAfter_of_feed hfeed] at hindented
      obtain ⟨u, w, hvalue, hw, hu | ⟨rfl, _⟩⟩ := hremoved.exists_indent hindented
      · exact ⟨u, w, hvalue, hw, .inl hu⟩
      · -- What is kept is not blank.
        rw [List.nil_append] at hvalue
        exact absurd (stripLine_all_isIndent (by rw [hvalue]; exact hw)) hne
    refine ⟨ms, ?_, fun done c _ => ?_⟩
    · rw [hsplit]
      exact .stripped hblank hfeed hne hremains
    · have hkept : stripNode (.text value) = [.text (stripLine value)] := by
        rw [stripNode]
        split
        · rename_i hnil
          exact absurd hnil hne
        · rfl
      have hleft := hextract done c fun hne => absurd rfl hne
      rw [← hleft]
      show (extractFrom ns (.text value :: imported) true done c).1 =
        (extractFrom ns (.text (stripLine value) :: imported) false done c).1
      rw [extractFrom_text, extractFrom_text, hkept]
      rfl

/-- An element that is neither metadata nor a story is kept, and extraction goes into it. -/
theorem kept {tag : Tag} {source : TagSource} {children : List Node} (hmeta : tag.name ≠ metaElement)
    (hstory : tag.name ≠ storyElement) (hsource : tag.source = some source)
    (hfirm : ∀ s, readOpeningTag (source.opening ++ s) = readOpeningTag source.opening)
    (hchildren : Leaves ns false .inline children children) (h : Leaves ns outside .inline nodes imported) :
    Leaves ns outside spot (.element tag children :: nodes) (.element tag children :: imported) := by
  obtain ⟨inner, hremains, hextract⟩ := hchildren
  refine cons (fun ms => .kept hsource hfirm hremains) (fun done c => ?_) h
  have hleft : (extractFrom ns children false [] c).1 = inner :=
    hextract [] c fun hne => absurd rfl hne
  rw [extractFrom_other hmeta hstory, hleft]
  exact ⟨_, rfl⟩

/-- A story without a name that starts its line is removed with it. -/
theorem removed {tag : Tag} {children : List Node} (hname : tag.name = storyElement)
    (hliteral : Story.literalName? tag = none) (hflow : tag.flow = true)
    (h : Leaves ns outside .removed nodes imported) :
    Leaves ns outside .fresh (.element tag children :: nodes) (.element tag children :: imported) := by
  obtain ⟨ms, hremains, hextract⟩ := h
  refine ⟨ms, .removed hremains, fun done c hsettled => ?_⟩
  have hdone := hsettled (by decide)
  rw [extractFrom_unnamed hname hliteral, hflow, if_pos rfl, hdone]
  exact hextract done _ fun _ => hdone

end Leaves

/-- Extraction leaves what remains of steady nodes.  `b` tells whether at most an indent stands before them
on their line. -/
theorem Steady.leaves {ns : List Char} {visited outside : Bool} {nodes : List Node}
    (h : Steady visited outside nodes) (hvisited : visited = true) {b : Bool} {spot : Spot}
    {imported : List Node} (hindented : Indented b nodes)
    (hreplaces : List.Forall₂ (Replaces Supplants) nodes imported)
    (hkeys : ∀ s ∈ Node.segmentsAll nodes, ∀ key, s.key? = some key → key.all isPlain = true)
    (hspot : spot ≠ .fresh → b = false ∨ ((∀ v, nodes.head? ≠ some (.text v)) ∧ ¬ StartsRemoved nodes))
    (hline : spot = .removed → ∀ v, nodes.head? = some (.text v) → allBlank (restOfLine v) = true) :
    Leaves ns outside spot nodes imported := by
  -- Behind a node that was kept, the next node does not start its line.
  have hbehind : ∀ {rest : List Node}, Spot.inline ≠ .fresh →
      false = false ∨ ((∀ v, rest.head? ≠ some (.text v)) ∧ ¬ StartsRemoved rest) := fun _ => .inl rfl
  have hinline : ∀ {rest : List Node}, Spot.inline = .removed → ∀ v, rest.head? = some (.text v) →
      allBlank (restOfLine v) = true := fun heq => by cases heq
  induction h generalizing b spot imported with
  | nil visited outside =>
      cases hreplaces
      exact ⟨[], .nil outside spot, fun done c _ => by rw [extractFrom_nil]; simp⟩
  | @text visited outside value rest hticks _ ih =>
      obtain ⟨hnext, hmargin⟩ : (∀ v, rest.head? ≠ some (.text v)) ∧ Indented (indentAfter b value) rest := by
        cases hindented with
        | text hnext hmargin => exact ⟨hnext, hmargin⟩
      have hinside : spot ≠ .fresh → b = false :=
        fun hne => (hspot hne).resolve_right fun hfirst => hfirst.1 value rfl
      have hrest : ∀ s ∈ Node.segmentsAll rest, ∀ key, s.key? = some key → key.all isPlain = true :=
        fun s hs => hkeys s (by simp [hs])
      cases hreplaces with
      | cons hfirst htail =>
          cases hfirst
          have hkept : ¬ StartsRemoved rest → Leaves ns outside .inline rest _ := fun hremoved =>
            ih hvisited hmargin htail hrest (fun _ => .inr ⟨hnext, hremoved⟩) hinline
          have hfresh : Leaves ns outside .fresh rest _ :=
            ih hvisited hmargin htail hrest (fun hne => absurd rfl hne) (fun heq => by cases heq)
          by_cases hremoved : spot = .removed
          · subst hremoved
            rw [hinside (by decide)] at hmargin
            exact .stripped hnext hticks (hline rfl value rfl) hmargin htail hkept hfresh
          · refine .text hremoved hnext hticks (fun hstarts => ?_) htail hkept fun _ => hfresh
            obtain ⟨u, w, hvalue, hw, hu⟩ := hstarts.exists_indent hmargin
            refine ⟨u, w, hvalue, hw, hu.imp_right fun ⟨hnil, hb⟩ => ⟨hnil, ?_⟩⟩
            by_contra hne
            rw [hinside hne] at hb
            cases hb
  | script _ ih =>
      cases hindented with
      | script hmargin =>
          cases hreplaces with
          | cons hfirst htail =>
              cases hfirst with
              | keep hn => exact absurd rfl (hn _)
              | script hsupplants =>
                  refine .cons (fun ms => .script hsupplants.block hsupplants.runs)
                    (fun done c => ⟨c, extractFrom_script _⟩) ?_
                  exact ih hvisited hmargin htail (fun s hs => hkeys s (by simp [hs])) hbehind hinline
  | expression hgroup _ ih =>
      cases hindented with
      | expression hmargin =>
          cases hreplaces with
          | cons hfirst htail =>
              cases hfirst
              refine .cons (fun ms => .expression hgroup)
                (fun done c => ⟨c, extractFrom_expression _ _⟩) ?_
              exact ih hvisited hmargin htail (fun s hs => hkeys s (by simp [hs])) hbehind hinline
  | @kept _ outside tag source children rest hother hsource hfirm hchildren _ ihc ih =>
      obtain ⟨hmeta, hstory⟩ := hother hvisited
      cases hindented with
      | element _ hinner hmargin =>
          cases hreplaces with
          | cons hfirst htail =>
              cases hfirst
              refine .kept hmeta hstory hsource hfirm ?_ ?_
              · exact ihc hvisited hinner (hchildren.replaces_self _)
                  (fun s hs => hkeys s (by simp [Segment.segments_other hmeta hstory, hs])) hbehind hinline
              · exact ih hvisited hmargin htail (fun s hs => hkeys s (by simp [hs])) hbehind hinline
  | metadata hname hchildren _ _ ih =>
      cases hindented with
      | element _ hinner hmargin =>
          cases hreplaces with
          | cons hfirst htail =>
              cases hfirst
              refine .cons (fun ms => .metadata hname hchildren hinner)
                (fun done c => ⟨_, extractFrom_metadata hname⟩) ?_
              exact ih hvisited hmargin htail (fun s hs => hkeys s (by simp [hs])) hbehind hinline
  | @named outside tag name children rest hname hliteral _ ih =>
      have hkey : (Naming.capitalize name).all isPlain = true :=
        hkeys (.story tag children hname) (by simp [Segment.segments_story hname]) _
          (by simp [Segment.key?, hliteral])
      cases hindented with
      | element _ _ hmargin =>
          cases hreplaces with
          | cons hfirst htail =>
              cases hfirst
              refine .cons (fun ms => .named hname hkey)
                (fun done c => ⟨_, extractFrom_named hname hliteral⟩) ?_
              exact ih hvisited hmargin htail (fun s hs => hkeys s (by simp [hs])) hbehind hinline
  | @removed outside tag children rest hname hliteral hflow hblank _ ih =>
      cases hindented with
      | element hstarts _ hmargin =>
          obtain rfl : spot = .fresh := by
            by_contra hne
            rcases hspot hne with hinside | ⟨_, hremoved⟩
            · rw [hstarts hflow] at hinside
              cases hinside
            · exact hremoved ⟨_, _, _, rfl, hname, hliteral, hflow⟩
          cases hreplaces with
          | cons hfirst htail =>
              cases hfirst
              refine .removed hname hliteral hflow ?_
              exact ih hvisited hmargin htail (fun s hs => hkeys s (by simp [hs])) (fun _ => .inl rfl)
                fun _ => hblank

end StoryDocs
